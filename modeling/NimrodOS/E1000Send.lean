import NimrodOS.E1000
import NimrodOS.Lib.Bits
import NimrodOS.Lib.FlagRing
import NimrodOS.Lib.Run

/-! The send side of the E1000 driver: `e1000_send` fills a descriptor and moves `REG_TDT` on,
and the card takes descriptors from `REG_TDH` whenever it likes. A call may begin while
others wait in one of its two loops, as those of an interrupt handler do. One that begins in
between, before `memcpy` or behind it and before the write of `REG_TDT`, is left out. -/
namespace NimrodOS.E1000.Send

open Wire Transition FlagRing

def numTxDesc : Nat := 8

instance neZero_numTxDesc : NeZero numTxDesc := ⟨by decide⟩

def tdescCmdEop : Byte := 1 <<< 0
def tdescCmdIfcs : Byte := 1 <<< 1
def tdescCmdRs : Byte := 1 <<< 3
def tdescStatDd : Byte := 1 <<< 0

/-- `addr` is the number of a buffer in `tx_buffers`. -/
structure TxDesc where
  addr : Fin numTxDesc
  length : Half
  cmd : Byte
  status : Byte

/-- Where a call goes on: in its first loop, before `memcpy`, before the descriptor is
filled in, before `tx_cur` is advanced, before `REG_TDT` is written, or in its second loop. -/
inductive Point where
  | await (data : List Byte) (timeout : Nat)
  | copy (data : List Byte)
  | describe (data : List Byte)
  | advance (data : List Byte)
  | tell (data : List Byte) (oldCur : Fin numTxDesc)
  | complete (oldCur : Fin numTxDesc) (timeout : Nat)

def Point.waits : Point → Bool
  | .await .. => true
  | .complete .. => true
  | _ => false

/-- What the call has still to hand to the card. -/
def Point.data? : Point → Option (List Byte)
  | .await data _ => some data
  | .copy data => some data
  | .describe data => some data
  | .advance data => some data
  | .tell data _ => some data
  | .complete .. => none

/-- The innermost call comes first. `given` is what `e1000_send` was called with, `accepted`
the data of the calls that wrote `REG_TDT`, `refused` what was turned down with which
result, and `sent` what the card sent. -/
structure State where
  txDescs : Fin numTxDesc → TxDesc
  txBuffers : Fin numTxDesc → Nat → Byte
  txCur : Fin numTxDesc
  tdh : Fin numTxDesc
  tdt : Fin numTxDesc
  nicFound : Bool
  calls : List Point
  given : List (List Byte)
  accepted : List (List Byte)
  refused : List (List Byte × Int)
  sent : List (List Byte)

def e1000TxInit (txDescs : Fin numTxDesc → TxDesc) (txBuffers : Fin numTxDesc → Nat → Byte) :
    State where
  txDescs := fun i => {txDescs i with addr := i, status := tdescStatDd, cmd := 0}
  txBuffers := txBuffers
  txCur := 0
  tdh := 0
  tdt := 0
  nicFound := true
  calls := []
  given := []
  accepted := []
  refused := []
  sent := []

/-- Up to the first loop. -/
def State.e1000Send (s : State) (data : List Byte) : State :=
  let len : Half := BitVec.ofNat 16 data.length
  if s.nicFound = false ∨ len > BitVec.ofNat 16 rxBufSizeE1000 then
    {s with given := s.given ++ [data], refused := s.refused ++ [(data,-1)]}
  else {s with given := s.given ++ [data], calls := .await data 10000 :: s.calls}

def State.copy (s : State) (data : List Byte) : State :=
  {s with txBuffers := Function.update s.txBuffers s.txCur (write (s.txBuffers s.txCur) 0 data)}

def State.describe (s : State) (data : List Byte) : State :=
  {s with txDescs := Function.update s.txDescs s.txCur {s.txDescs s.txCur with
    length := BitVec.ofNat 16 data.length
    cmd := tdescCmdEop ||| tdescCmdIfcs ||| tdescCmdRs
    status := 0}}

/-- The next step of the innermost call, which is at the point, with those around it. -/
def State.goOn (s : State) (outer : List Point) : Point → State
  | .await data timeout =>
    if (s.txDescs s.txCur).status &&& tdescStatDd = 0 ∧ timeout - 1 > 0 then
      {s with calls := .await data (timeout - 1) :: outer}
    else if (s.txDescs s.txCur).status &&& tdescStatDd = 0 ∨ timeout = 0 then
      {s with calls := outer, refused := s.refused ++ [(data,-2)]}
    else {s with calls := .copy data :: outer}
  | .copy data => {s.copy data with calls := .describe data :: outer}
  | .describe data => {s.describe data with calls := .advance data :: outer}
  | .advance data => {s with txCur := s.txCur + 1, calls := .tell data s.txCur :: outer}
  | .tell data oldCur =>
    {s with
      tdt := s.txCur
      accepted := s.accepted ++ [data]
      calls := .complete oldCur 10000 :: outer}
  | .complete oldCur timeout =>
    if (s.txDescs oldCur).status &&& tdescStatDd = 0 ∧ timeout - 1 > 0 then
      {s with calls := .complete oldCur (timeout - 1) :: outer}
    else {s with calls := outer}

def State.driver (s : State) : State :=
  match s.calls with
  | [] => s
  | point :: outer => s.goOn outer point

/-- The card sends what the descriptor at `REG_TDH` describes, and reports it if asked to. -/
def State.transmit (s : State) : State :=
  let desc := s.txDescs s.tdh
  {s with
    txDescs := Function.update s.txDescs s.tdh {desc with
      status := if desc.cmd &&& tdescCmdRs ≠ 0 then desc.status ||| tdescStatDd else desc.status}
    tdh := s.tdh + 1
    sent := s.sent ++ [bytesFrom (s.txBuffers desc.addr) 0 desc.length.toNat]}

inductive Op where
  | call (data : List Byte)
  | driver
  | card

inductive Step : State → Op → State → Prop
  | call {s : State} {data : List Byte} (short : data.length < 2 ^ 16)
      (waiting : ∀ p ∈ s.calls.head?, p.waits) : Step s (.call data) (s.e1000Send data)
  | driver {s : State} : Step s .driver s.driver
  | card {s : State} (owned : s.tdh ≠ s.tdt) : Step s .card s.transmit

/-! The ring. -/

/-- Not yet sent, or not yet given to the card. -/
def State.Busy (s : State) (i : Fin numTxDesc) : Prop := (s.txDescs i).status &&& tdescStatDd = 0

structure State.Item (s : State) (i : Fin numTxDesc) (data : List Byte) : Prop where
  length : (s.txDescs i).length = BitVec.ofNat 16 data.length
  cmd : (s.txDescs i).cmd &&& tdescCmdRs ≠ 0
  fits : data.length ≤ rxBufSizeE1000
  stands : At (s.txBuffers i) 0 data

/-- The card owns `waiting`, numbered from `first` on; behind it is what a call has filled in. -/
structure Ring (s : State) (first : Nat) (waiting filled : List (List Byte)) : Prop where
  fills : Fills s.Busy s.Item first (waiting ++ filled)
  addr : ∀ i, (s.txDescs i).addr = i
  head : s.tdh = slot numTxDesc first
  tail : s.tdt = slot numTxDesc (first + waiting.length)
  spare : waiting.length < numTxDesc
  accepted : s.accepted = s.sent ++ waiting

/-- A call inside one of its loops. -/
def Point.Rests : Point → Prop
  | .await data timeout => data.length ≤ rxBufSizeE1000 ∧ 0 < timeout
  | .complete .. => True
  | _ => False

/-- What holds at each point of the innermost call, as long as the ring works. -/
inductive Working (s : State) : Prop
  | rest {first : Nat} {waiting : List (List Byte)} (ring : Ring s first waiting [])
      (cur : s.txCur = s.tdt) (outer : ∀ p ∈ s.calls, p.Rests)
  | copy {first : Nat} {waiting : List (List Byte)} {data : List Byte} {outer : List Point}
      (ring : Ring s first waiting []) (cur : s.txCur = s.tdt) (calls : s.calls = .copy data :: outer)
      (fits : data.length ≤ rxBufSizeE1000) (rests : ∀ p ∈ outer, p.Rests)
  | describe {first : Nat} {waiting : List (List Byte)} {data : List Byte} {outer : List Point}
      (ring : Ring s first waiting []) (cur : s.txCur = s.tdt)
      (calls : s.calls = .describe data :: outer) (fits : data.length ≤ rxBufSizeE1000)
      (rests : ∀ p ∈ outer, p.Rests) (stands : At (s.txBuffers s.txCur) 0 data)
  | advance {first : Nat} {waiting : List (List Byte)} {data : List Byte} {outer : List Point}
      (ring : Ring s first waiting [data]) (cur : s.txCur = s.tdt)
      (calls : s.calls = .advance data :: outer) (rests : ∀ p ∈ outer, p.Rests)
  | tell {first : Nat} {waiting : List (List Byte)} {data : List Byte} {outer : List Point}
      {oldCur : Fin numTxDesc} (ring : Ring s first waiting [data]) (cur : s.txCur = s.tdt + 1)
      (calls : s.calls = .tell data oldCur :: outer) (rests : ∀ p ∈ outer, p.Rests)

/-- A full ring looks empty to the card. -/
structure Dead (s : State) : Prop where
  busy : ∀ i, s.Busy i
  nothing : s.tdh = s.tdt
  rests : ∀ p ∈ s.calls, p.Rests
  order : s.sent <+: s.accepted
  owed : s.accepted.length = s.sent.length + numTxDesc

def Sound (s : State) : Prop := Working s ∨ Dead s

variable {s t : State} {op : Op} {first : Nat} {waiting filled : List (List Byte)} {data : List Byte}
  {i : Fin numTxDesc}

theorem init_sound (txDescs : Fin numTxDesc → TxDesc) (txBuffers : Fin numTxDesc → Nat → Byte) :
    Sound (e1000TxInit txDescs txBuffers) := by
  have ring : Ring (e1000TxInit txDescs txBuffers) 0 [] [] := by
    refine ⟨.empty fun i => ?_,fun _ => rfl,rfl,rfl,by decide,rfl⟩
    simp [State.Busy,e1000TxInit,tdescStatDd]
  exact .inl (.rest ring rfl (by simp [e1000TxInit]))

namespace Ring

theorem same_items (descs : t.txDescs = s.txDescs) (buffers : t.txBuffers = s.txBuffers) :
    t.Busy = s.Busy ∧ t.Item = s.Item := by
  constructor
  · funext i
    rw [State.Busy,State.Busy,descs]
  · funext i data
    apply propext
    constructor
    · rintro ⟨length,cmd,fits,stands⟩
      exact ⟨descs ▸ length,descs ▸ cmd,fits,buffers ▸ stands⟩
    · rintro ⟨length,cmd,fits,stands⟩
      exact ⟨descs ▸ length,descs ▸ cmd,fits,buffers ▸ stands⟩

/-- Neither the descriptors nor the buffers change. -/
theorem same (ring : Ring s first waiting filled) (descs : t.txDescs = s.txDescs)
    (buffers : t.txBuffers = s.txBuffers) (head : t.tdh = s.tdh) (tail : t.tdt = s.tdt)
    (accepted : t.accepted = s.accepted) (sent : t.sent = s.sent) : Ring t first waiting filled := by
  obtain ⟨busy,item⟩ := same_items descs buffers
  refine ⟨?_,descs ▸ ring.addr,head.trans ring.head,tail.trans ring.tail,ring.spare,?_⟩
  · rw [busy,item]
    exact ring.fills
  · rw [accepted,sent]
    exact ring.accepted

/-- The next buffer to fill was sent. -/
theorem idle (ring : Ring s first waiting []) : ¬s.Busy s.tdt := by
  rw [ring.tail]
  have free := ring.fills.free waiting.length
  rw [List.append_nil] at free
  exact free (Nat.le_refl _) ring.spare

/-- What the card sends is the first that waits. -/
theorem transmit (ring : Ring s first waiting filled) (owned : s.tdh ≠ s.tdt) :
    ∃ data rest, waiting = data :: rest ∧ s.transmit.sent = s.sent ++ [data] ∧
      Ring s.transmit (first + 1) rest filled := by
  cases waiting with
  | nil => exact absurd (ring.head.trans ring.tail.symm) owned
  | cons data rest =>
    obtain ⟨-,item⟩ := ring.fills.head
    rw [← ring.head] at item
    have short : (BitVec.ofNat 16 data.length : Half).toNat = data.length :=
      Nat.mod_eq_of_lt (Nat.lt_of_le_of_lt item.fits (by decide))
    have sends : s.transmit.sent = s.sent ++ [data] := by
      simp only [State.transmit,ring.addr,item.length,short]
      rw [item.stands.bytesFrom]
    have here : s.transmit.txDescs s.tdh =
        {s.txDescs s.tdh with status := (s.txDescs s.tdh).status ||| tdescStatDd} := by
      simp only [State.transmit,Function.update_self,if_pos item.cmd]
    have others : ∀ i, i ≠ s.tdh → s.transmit.txDescs i = s.txDescs i := by
      intro i other
      simp [State.transmit,other]
    have spare := ring.spare
    have size : (data :: rest).length = rest.length + 1 := rfl
    refine ⟨data,rest,rfl,sends,?_,fun i => ?_,?_,?_,by omega,?_⟩
    · refine ring.fills.take ?_ fun i other => ?_
      · rw [← ring.head,State.Busy,here]
        exact Bits.or_and_same _ _ ▸ by decide
      · rw [← ring.head] at other
        constructor
        · rw [State.Busy,State.Busy,others i other]
        · rintro b ⟨length,cmd,fits,stands⟩
          exact ⟨others i other ▸ length,others i other ▸ cmd,fits,stands⟩
    · by_cases same : i = s.tdh
      · subst same
        rw [here]
        exact ring.addr _
      · rw [others i same]
        exact ring.addr i
    · change s.tdh + 1 = _
      rw [ring.head,slot_add]
      rfl
    · refine ring.tail.trans (congrArg _ ?_)
      rw [size]
      omega
    · rw [sends]
      change s.accepted = _
      rw [ring.accepted,List.append_assoc]
      rfl

/-- Filling in the free descriptor behind what waits. -/
theorem describe (ring : Ring s first waiting []) (cur : s.txCur = s.tdt)
    (fits : data.length ≤ rxBufSizeE1000) (stands : At (s.txBuffers s.txCur) 0 data) :
    Ring (s.describe data) first waiting [data] := by
  have here : (s.describe data).txDescs s.txCur = {s.txDescs s.txCur with
      length := BitVec.ofNat 16 data.length
      cmd := tdescCmdEop ||| tdescCmdIfcs ||| tdescCmdRs
      status := 0} := Function.update_self ..
  have others : ∀ i, i ≠ s.txCur → (s.describe data).txDescs i = s.txDescs i :=
    fun i other => Function.update_of_ne other ..
  have place : s.txCur = slot numTxDesc (first + waiting.length) := cur.trans ring.tail
  have old := ring.fills
  rw [List.append_nil] at old
  refine ⟨?_,fun i => ?_,ring.head,ring.tail,ring.spare,ring.accepted⟩
  · refine old.fill ring.spare ?_ fun i other => ?_
    · rw [← place]
      refine ⟨?_,?_,?_,fits,stands⟩
      · rw [State.Busy,here]
        exact BitVec.zero_and ..
      · rw [here]
      · rw [here]
        exact (by decide : (tdescCmdEop ||| tdescCmdIfcs ||| tdescCmdRs) &&& tdescCmdRs ≠ 0)
    · rw [← place] at other
      constructor
      · rw [State.Busy,State.Busy,others i other]
      · rintro b ⟨length,cmd,fits,stands⟩
        exact ⟨others i other ▸ length,others i other ▸ cmd,fits,stands⟩
  · by_cases same : i = s.txCur
    · subst same
      rw [here]
      exact ring.addr _
    · rw [others i same]
      exact ring.addr i

/-- The copy goes to a buffer of which the card owns nothing. -/
theorem copy (ring : Ring s first waiting []) (cur : s.txCur = s.tdt) (data : List Byte) :
    Ring (s.copy data) first waiting [] := by
  have free := ring.idle
  rw [← cur] at free
  refine ⟨⟨ring.fills.room,fun k inside => ?_,ring.fills.free⟩,ring.addr,ring.head,ring.tail,ring.spare,
    ring.accepted⟩
  obtain ⟨busy,length,cmd,fits,stands⟩ := ring.fills.filled k inside
  refine ⟨busy,length,cmd,fits,?_⟩
  have other : slot numTxDesc (first + k) ≠ s.txCur := by
    intro same
    exact free (same ▸ busy)
  simpa [State.copy,other] using stands

/-- The register is written: the ring goes on, or it is full and the card sees nothing in it. -/
theorem tell (ring : Ring s first waiting [data]) (cur : s.txCur = s.tdt + 1)
    (descs : t.txDescs = s.txDescs) (buffers : t.txBuffers = s.txBuffers) (head : t.tdh = s.tdh)
    (tail : t.tdt = s.txCur) (accepted : t.accepted = s.accepted ++ [data]) (sent : t.sent = s.sent) :
    Ring t first (waiting ++ [data]) [] ∨
    (waiting.length + 1 = numTxDesc ∧ (∀ i, t.Busy i) ∧ t.tdh = t.tdt) := by
  obtain ⟨busy,item⟩ := same_items descs buffers
  have size : (waiting ++ [data]).length = waiting.length + 1 := List.length_append
  have place : s.txCur = slot numTxDesc (first + (waiting ++ [data]).length) := by
    rw [cur,ring.tail,size,← Nat.add_assoc,slot_add first]
    rw [slot_add,slot_add _ 1,slot_add]
    rfl
  by_cases room : waiting.length + 1 < numTxDesc
  · refine .inl ⟨?_,descs ▸ ring.addr,head.trans ring.head,tail.trans place,size ▸ room,?_⟩
    · rw [List.append_nil,busy,item]
      exact ring.fills
    · rw [accepted,sent,ring.accepted,List.append_assoc]
  · have whole : waiting.length + 1 = numTxDesc := by
      have := ring.spare
      omega
    refine .inr ⟨whole,busy ▸ ring.fills.all (size.trans whole),?_⟩
    rw [head,tail,place,size,whole,slot_add_turn]
    exact ring.head

end Ring

/-! What a step does. -/

theorem driver_nil (calls : s.calls = []) : s.driver = s := by simp only [State.driver,calls]

theorem driver_cons {p : Point} {outer : List Point} (calls : s.calls = p :: outer) :
    s.driver = s.goOn outer p := by simp only [State.driver,calls]

/-- A call that begins is refused, or waits for a free descriptor. -/
theorem e1000Send_cases (short : data.length < 2 ^ 16) (s : State) :
    (s.e1000Send data = {s with given := s.given ++ [data], refused := s.refused ++ [(data,-1)]} ∧
      (s.nicFound = false ∨ rxBufSizeE1000 < data.length)) ∨
    (s.e1000Send data = {s with given := s.given ++ [data], calls := .await data 10000 :: s.calls} ∧
      data.length ≤ rxBufSizeE1000) := by
  have value : (BitVec.ofNat 16 data.length : Half) > BitVec.ofNat 16 rxBufSizeE1000 ↔
      rxBufSizeE1000 < data.length := by
    simp only [gt_iff_lt,BitVec.lt_def,BitVec.toNat_ofNat,Nat.mod_eq_of_lt short]
    exact Iff.rfl
  simp only [State.e1000Send,value]
  by_cases none : s.nicFound = false ∨ rxBufSizeE1000 < data.length
  · exact .inl ⟨if_pos none,none⟩
  · exact .inr ⟨if_neg none,not_lt.mp fun long => none (.inr long)⟩

theorem Working.call (working : Working s) (short : data.length < 2 ^ 16)
    (waiting : ∀ p ∈ s.calls.head?, p.waits) : Working (s.e1000Send data) := by
  have busy {p : Point} {outer : List Point} (calls : s.calls = p :: outer) (acts : p.waits = false) :
      False := by simp [calls,acts] at waiting
  cases working with
  | rest ring cur outer =>
    rcases e1000Send_cases short s with ⟨same,-⟩ | ⟨same,fits⟩
    · rw [same]
      exact .rest (ring.same rfl rfl rfl rfl rfl rfl) cur outer
    · rw [same]
      refine .rest (ring.same rfl rfl rfl rfl rfl rfl) cur ?_
      exact List.forall_mem_cons.mpr ⟨⟨fits,by decide⟩,outer⟩
  | copy ring cur calls => exact (busy calls rfl).elim
  | describe ring cur calls => exact (busy calls rfl).elim
  | advance ring cur calls => exact (busy calls rfl).elim
  | tell ring cur calls => exact (busy calls rfl).elim

theorem Dead.call (dead : Dead s) (short : data.length < 2 ^ 16) : Dead (s.e1000Send data) := by
  obtain ⟨busy,nothing,rests,order,owed⟩ := dead
  rcases e1000Send_cases short s with ⟨same,-⟩ | ⟨same,fits⟩
  · rw [same]
    exact ⟨busy,nothing,rests,order,owed⟩
  · rw [same]
    exact ⟨busy,nothing,List.forall_mem_cons.mpr ⟨⟨fits,by decide⟩,rests⟩,order,owed⟩

theorem Working.driver (working : Working s) : Sound s.driver := by
  cases working with
  | rest ring cur outer =>
    cases calls : s.calls with
    | nil =>
      rw [driver_nil calls]
      exact .inl (.rest ring cur outer)
    | cons p rest =>
      rw [driver_cons calls]
      rw [calls,List.forall_mem_cons] at outer
      obtain ⟨here,rests⟩ := outer
      cases p with
      | await data timeout =>
        have free := cur ▸ ring.idle
        have some' : ¬timeout = 0 := here.2.ne'
        simp only [State.Busy] at free
        simp only [State.goOn,free,some',false_and,false_or,if_false]
        exact .inl (.copy (ring.same rfl rfl rfl rfl rfl rfl) cur rfl here.1 rests)
      | complete oldCur timeout =>
        simp only [State.goOn]
        split_ifs
        · refine .inl (.rest (ring.same rfl rfl rfl rfl rfl rfl) cur ?_)
          exact List.forall_mem_cons.mpr ⟨trivial,rests⟩
        · exact .inl (.rest (ring.same rfl rfl rfl rfl rfl rfl) cur rests)
      | copy data => exact here.elim
      | describe data => exact here.elim
      | advance data => exact here.elim
      | tell data oldCur => exact here.elim
  | @copy first waiting data outer ring cur calls fits rests =>
    rw [driver_cons calls]
    refine .inl (.describe ((ring.copy cur data).same rfl rfl rfl rfl rfl rfl) cur rfl fits rests ?_)
    have copied : (s.copy data).txBuffers s.txCur = write (s.txBuffers s.txCur) 0 data :=
      Function.update_self ..
    change At ((s.copy data).txBuffers s.txCur) 0 data
    rw [copied]
    exact at_write
  | @describe first waiting data outer ring cur calls fits rests stands =>
    rw [driver_cons calls]
    exact .inl (.advance ((ring.describe cur fits stands).same rfl rfl rfl rfl rfl rfl) cur rfl rests)
  | advance ring cur calls rests =>
    rw [driver_cons calls]
    exact .inl (.tell (ring.same rfl rfl rfl rfl rfl rfl) (congrArg (· + 1) cur) rfl rests)
  | @tell first waiting data outer oldCur ring cur calls rests =>
    rw [driver_cons calls]
    have rests : ∀ p ∈ Point.complete oldCur 10000 :: outer, p.Rests :=
      List.forall_mem_cons.mpr ⟨trivial,rests⟩
    rcases ring.tell (t := s.goOn outer (.tell data oldCur)) cur rfl rfl rfl rfl rfl rfl with
      next | ⟨whole,busy,nothing⟩
    · exact .inl (.rest next rfl rests)
    · refine .inr ⟨busy,nothing,rests,?_,?_⟩
      · simp only [State.goOn,ring.accepted,List.append_assoc]
        exact List.prefix_append ..
      · simp only [State.goOn,ring.accepted,List.length_append,List.length_singleton]
        omega

theorem Dead.driver (dead : Dead s) : Dead s.driver := by
  obtain ⟨busy,nothing,rests,order,owed⟩ := dead
  cases calls : s.calls with
  | nil =>
    rw [driver_nil calls]
    exact ⟨busy,nothing,rests,order,owed⟩
  | cons p outer =>
    rw [driver_cons calls]
    rw [calls,List.forall_mem_cons] at rests
    obtain ⟨here,rests⟩ := rests
    cases p with
    | await data timeout =>
      have waits : (s.txDescs s.txCur).status &&& tdescStatDd = 0 := busy s.txCur
      simp only [State.goOn,waits,true_and,true_or,if_true]
      split_ifs with more
      · exact ⟨busy,nothing,List.forall_mem_cons.mpr ⟨⟨here.1,more⟩,rests⟩,order,owed⟩
      · exact ⟨busy,nothing,rests,order,owed⟩
    | complete oldCur timeout =>
      simp only [State.goOn]
      split_ifs
      · exact ⟨busy,nothing,List.forall_mem_cons.mpr ⟨trivial,rests⟩,order,owed⟩
      · exact ⟨busy,nothing,rests,order,owed⟩
    | copy data => exact here.elim
    | describe data => exact here.elim
    | advance data => exact here.elim
    | tell data oldCur => exact here.elim

theorem Working.card (working : Working s) (owned : s.tdh ≠ s.tdt) : Working s.transmit := by
  cases working with
  | rest ring cur outer =>
    obtain ⟨data,rest,rfl,-,next⟩ := ring.transmit owned
    exact .rest next cur outer
  | copy ring cur calls fits rests =>
    obtain ⟨data,rest,rfl,-,next⟩ := ring.transmit owned
    exact .copy next cur calls fits rests
  | describe ring cur calls fits rests stands =>
    obtain ⟨data,rest,rfl,-,next⟩ := ring.transmit owned
    exact .describe next cur calls fits rests stands
  | advance ring cur calls rests =>
    obtain ⟨data,rest,rfl,-,next⟩ := ring.transmit owned
    exact .advance next cur calls rests
  | tell ring cur calls rests =>
    obtain ⟨data,rest,rfl,-,next⟩ := ring.transmit owned
    exact .tell next cur calls rests

theorem Dead.step (dead : Dead s) (moved : Step s op t) : Dead t := by
  cases moved with
  | call short waiting => exact dead.call short
  | driver => exact dead.driver
  | card owned => exact absurd dead.nothing owned

theorem Sound.step (sound : Sound s) (moved : Step s op t) : Sound t := by
  rcases sound with working | dead
  · cases moved with
    | call short waiting => exact .inl (working.call short waiting)
    | driver => exact working.driver
    | card owned => exact .inl (working.card owned)
  · exact .inr (dead.step moved)

/-! Whole runs. -/

theorem Dead.stays (dead : Dead s) {future : List (State × Op)} (run : Run Step s future t) :
    t.sent = s.sent ∧ t.accepted = s.accepted := by
  suffices kept : ∀ u op v, (Dead u ∧ u.sent = s.sent ∧ u.accepted = s.accepted) → Step u op v →
      Dead v ∧ v.sent = s.sent ∧ v.accepted = s.accepted from
    (run.invariant ⟨dead,rfl,rfl⟩ kept).2
  rintro u op v ⟨dead,sent,accepted⟩ moved
  refine ⟨dead.step moved,?_⟩
  cases moved with
  | @call data short waiting =>
    rcases e1000Send_cases short u with ⟨same,-⟩ | ⟨same,-⟩
    · rw [same]
      exact ⟨sent,accepted⟩
    · rw [same]
      exact ⟨sent,accepted⟩
  | driver =>
    cases calls : u.calls with
    | nil =>
      rw [driver_nil calls]
      exact ⟨sent,accepted⟩
    | cons p outer =>
      rw [driver_cons calls]
      have rests := dead.rests p (by simp [calls])
      cases p with
      | await data timeout =>
        simp only [State.goOn]
        split_ifs <;> exact ⟨sent,accepted⟩
      | complete oldCur timeout =>
        simp only [State.goOn]
        split_ifs <;> exact ⟨sent,accepted⟩
      | copy data => exact rests.elim
      | describe data => exact rests.elim
      | advance data => exact rests.elim
      | tell data oldCur => exact rests.elim
  | card owned => exact absurd dead.nothing owned

theorem Working.ring (working : Working s) : ∃ first waiting filled, Ring s first waiting filled := by
  cases working with
  | rest ring => exact ⟨_,_,_,ring⟩
  | copy ring => exact ⟨_,_,_,ring⟩
  | describe ring => exact ⟨_,_,_,ring⟩
  | advance ring => exact ⟨_,_,_,ring⟩
  | tell ring => exact ⟨_,_,_,ring⟩

/-- The card alone sends all that it was given. -/
theorem Ring.drains (ring : Ring s first waiting filled) : ∃ future t, Run Step s future t ∧
    (∀ entry ∈ future, entry.2 = .card) ∧ t.accepted = s.accepted ∧ t.sent = s.accepted := by
  induction waiting generalizing s first with
  | nil =>
    refine ⟨[],s,.nil,by simp,rfl,?_⟩
    rw [ring.accepted,List.append_nil]
  | cons data rest ih =>
    have owned : s.tdh ≠ s.tdt := by
      rw [ring.head,ring.tail]
      exact slot_ne (by simp) (Nat.add_lt_add_left ring.spare first)
    obtain ⟨data',rest',same,-,next⟩ := ring.transmit owned
    obtain ⟨rfl,rfl⟩ := List.cons.inj same
    obtain ⟨future,t,run,cards,accepted,sent⟩ := ih next
    exact ⟨_,t,Run.cons (.card owned) run,List.forall_mem_cons.mpr ⟨rfl,cards⟩,accepted,sent⟩

/-- What was refused, and why. -/
structure Refusals (s : State) : Prop where
  nicFound : s.nicFound = true
  refused : ∀ entry ∈ s.refused, entry.2 = -1 ∧ rxBufSizeE1000 < entry.1.length ∨
    entry.2 = -2 ∧ s.accepted.length = s.sent.length + numTxDesc

/-- The first loop ends at once, with the free descriptor that it looks for. -/
theorem Working.refuses_none (working : Working s) : s.driver.refused = s.refused := by
  cases working with
  | rest ring cur outer =>
    cases calls : s.calls with
    | nil => rw [driver_nil calls]
    | cons p rest =>
      rw [driver_cons calls]
      have here := outer p (by simp [calls])
      cases p with
      | await data timeout =>
        have free := cur ▸ ring.idle
        have some' : ¬timeout = 0 := here.2.ne'
        simp only [State.Busy] at free
        simp only [State.goOn,free,some',false_and,false_or,if_false]
      | complete oldCur timeout =>
        simp only [State.goOn]
        split_ifs <;> rfl
      | copy data => exact here.elim
      | describe data => exact here.elim
      | advance data => exact here.elim
      | tell data oldCur => exact here.elim
  | copy ring cur calls fits rests => rw [driver_cons calls]; rfl
  | describe ring cur calls fits rests stands => rw [driver_cons calls]; rfl
  | advance ring cur calls rests => rw [driver_cons calls]; rfl
  | tell ring cur calls rests => rw [driver_cons calls]; rfl

theorem driver_refused (s : State) : s.driver.nicFound = s.nicFound ∧
    ∀ entry ∈ s.driver.refused, entry ∈ s.refused ∨ entry.2 = -2 := by
  cases calls : s.calls with
  | nil =>
    rw [driver_nil calls]
    exact ⟨rfl,fun entry member => .inl member⟩
  | cons p outer =>
    rw [driver_cons calls]
    cases p with
    | await data timeout =>
      simp only [State.goOn]
      split_ifs
      · exact ⟨rfl,fun entry member => .inl member⟩
      · refine ⟨rfl,fun entry member => ?_⟩
        rcases List.mem_append.mp member with old | new
        · exact .inl old
        · rw [List.mem_singleton.mp new]
          exact .inr rfl
      · exact ⟨rfl,fun entry member => .inl member⟩
    | complete oldCur timeout =>
      simp only [State.goOn]
      split_ifs <;> exact ⟨rfl,fun entry member => .inl member⟩
    | copy data => exact ⟨rfl,fun entry member => .inl member⟩
    | describe data => exact ⟨rfl,fun entry member => .inl member⟩
    | advance data => exact ⟨rfl,fun entry member => .inl member⟩
    | tell data oldCur => exact ⟨rfl,fun entry member => .inl member⟩

theorem Working.owes (working : Working s) : s.accepted.length < s.sent.length + numTxDesc := by
  obtain ⟨first,waiting,filled,ring⟩ := working.ring
  rw [ring.accepted,List.length_append]
  exact Nat.add_lt_add_left ring.spare _

/-- So nothing was refused for want of a descriptor. -/
theorem Refusals.long (refusals : Refusals s) (working : Working s) :
    ∀ entry ∈ s.refused, entry.2 = -1 ∧ rxBufSizeE1000 < entry.1.length := by
  intro entry member
  rcases refusals.refused entry member with long | ⟨-,owed⟩
  · exact long
  · exact absurd owed working.owes.ne

theorem Refusals.step (refusals : Refusals s) (sound : Sound s) (moved : Step s op t) : Refusals t := by
  obtain ⟨nicFound,refused⟩ := refusals
  cases moved with
  | @call data short waiting =>
    rcases e1000Send_cases short s with ⟨same,none⟩ | ⟨same,-⟩
    · rw [same]
      refine ⟨nicFound,fun entry member => ?_⟩
      rcases List.mem_append.mp member with old | new
      · exact refused entry old
      · rw [List.mem_singleton.mp new]
        exact .inl ⟨rfl,none.resolve_left (by simp [nicFound])⟩
    · rw [same]
      exact ⟨nicFound,refused⟩
  | driver =>
    refine ⟨(driver_refused s).1.trans nicFound,fun entry member => ?_⟩
    rcases sound with working | dead
    · rw [working.refuses_none] at member
      exact .inl (Refusals.long ⟨nicFound,refused⟩ working entry member)
    · obtain ⟨sent,accepted⟩ := dead.stays (Run.single .driver)
      rw [accepted,sent]
      rcases (driver_refused s).2 entry member with old | late
      · exact refused entry old
      · exact .inr ⟨late,dead.owed⟩
  | card owned =>
    rcases sound with working | dead
    · exact ⟨nicFound,fun entry member => .inl (Refusals.long ⟨nicFound,refused⟩ working entry member)⟩
    · exact absurd dead.nothing owned

/-- Every call's data is in one place. -/
def Counted (s : State) : Prop := ∀ data, s.given.count data =
  s.accepted.count data + (s.refused.map Prod.fst).count data + (s.calls.filterMap Point.data?).count data

theorem Counted.step (counted : Counted s) (moved : Step s op t) : Counted t := by
  intro x
  have before := counted x
  cases moved with
  | @call data short waiting =>
    rcases e1000Send_cases short s with ⟨same,-⟩ | ⟨same,-⟩
    · rw [same]
      simp only [List.map_append,List.count_append,List.map_cons,List.map_nil]
      omega
    · rw [same]
      simp only [List.filterMap_cons,Point.data?,List.count_append,List.count_cons,List.count_nil]
      omega
  | driver =>
    cases calls : s.calls with
    | nil =>
      rw [driver_nil calls]
      exact before
    | cons p outer =>
      rw [driver_cons calls]
      rw [calls] at before
      cases p with
      | tell data oldCur =>
        simp only [State.goOn,Point.data?,List.filterMap_cons,List.count_append,List.count_cons,
          List.count_nil] at before ⊢
        omega
      | await data timeout =>
        simp only [State.goOn]
        split_ifs
        · exact before
        · simp only [List.map_append,List.map_cons,List.map_nil,Point.data?,List.filterMap_cons,
            List.count_append,List.count_cons,List.count_nil] at before ⊢
          omega
        · exact before
      | complete oldCur timeout =>
        simp only [State.goOn]
        split_ifs <;> exact before
      | copy data => exact before
      | describe data => exact before
      | advance data => exact before
  | card owned => exact before

/-- All of it, for a run. -/
structure Accounted (s : State) : Prop where
  sound : Sound s
  counted : Counted s
  refusals : Refusals s

theorem Accounted.step (accounted : Accounted s) (moved : Step s op t) : Accounted t where
  sound := accounted.sound.step moved
  counted := accounted.counted.step moved
  refusals := accounted.refusals.step accounted.sound moved

theorem init_accounted (txDescs : Fin numTxDesc → TxDesc) (txBuffers : Fin numTxDesc → Nat → Byte) :
    Accounted (e1000TxInit txDescs txBuffers) where
  sound := init_sound txDescs txBuffers
  counted _ := rfl
  refusals := ⟨rfl,by simp [e1000TxInit]⟩

/-- A call that finds room comes to its second loop while the card rests. -/
theorem accepts (sound : Sound s) (nicFound : s.nicFound = true) (waits : ∀ p ∈ s.calls, p.waits)
    (room : s.accepted.length < s.sent.length + numTxDesc) (fits : data.length ≤ rxBufSizeE1000) :
    ∃ past t, Run Step s past t ∧ t.accepted = s.accepted ++ [data] ∧ t.sent = s.sent ∧
      t.nicFound = true ∧ ∀ p ∈ t.calls, p.waits := by
  have acts {p : Point} {outer : List Point} (calls : s.calls = p :: outer) (acts : p.waits = false) :
      False := by simp [calls,acts] at waits
  have free : ¬s.Busy s.txCur := by
    rcases sound with working | dead
    · cases working with
      | rest ring cur => exact cur ▸ ring.idle
      | copy ring cur calls => exact (acts calls rfl).elim
      | describe ring cur calls => exact (acts calls rfl).elim
      | advance ring cur calls => exact (acts calls rfl).elim
      | tell ring cur calls => exact (acts calls rfl).elim
    · exact absurd dead.owed room.ne
  have short : data.length < 2 ^ 16 := Nat.lt_of_le_of_lt fits (by decide)
  have begins : s.e1000Send data =
      {s with given := s.given ++ [data], calls := .await data 10000 :: s.calls} := by
    rcases e1000Send_cases short s with ⟨-,none⟩ | ⟨same,-⟩
    · exact absurd none (by simp [nicFound,fits])
    · exact same
  have finds : (s.e1000Send data).driver =
      {s with given := s.given ++ [data], calls := .copy data :: s.calls} := by
    have some' : ¬(10000 : Nat) = 0 := by decide
    simp only [State.Busy] at free
    rw [begins,driver_cons rfl]
    simp only [State.goOn,free,some',false_and,false_or,if_false]
  have called : Step s (.call data) (s.e1000Send data) := by
    refine .call short fun p first => waits p ?_
    exact List.mem_of_mem_head? first
  have run := ((((Run.single called).snoc .driver).snoc .driver).snoc .driver).snoc .driver |>.snoc .driver
  rw [finds] at run
  refine ⟨_,_,run,rfl,rfl,nicFound,?_⟩
  exact List.forall_mem_cons.mpr ⟨rfl,waits⟩

section

variable {txDescs : Fin numTxDesc → TxDesc} {txBuffers : Fin numTxDesc → Nat → Byte}
  {past : List (State × Op)}

/-- Up to eight frames find room without the card. -/
theorem accepts_all (txDescs : Fin numTxDesc → TxDesc) (txBuffers : Fin numTxDesc → Nat → Byte)
    (frames : List (List Byte)) (few : frames.length ≤ numTxDesc)
    (fits : ∀ data ∈ frames, data.length ≤ rxBufSizeE1000) :
    ∃ past s, Run Step (e1000TxInit txDescs txBuffers) past s ∧ s.accepted = frames ∧ s.sent = [] ∧
      s.nicFound = true ∧ ∀ p ∈ s.calls, p.waits := by
  induction frames using List.reverseRecOn with
  | nil => exact ⟨_,_,.nil,rfl,rfl,rfl,by simp [e1000TxInit]⟩
  | append_singleton frames data ih =>
    rw [List.length_append,List.length_singleton] at few
    rw [List.forall_mem_append,List.forall_mem_singleton] at fits
    obtain ⟨past,s,run,rfl,none,nicFound,waits⟩ := ih (by omega) fits.1
    have sound : Sound s :=
      run.invariant (init_sound txDescs txBuffers) fun _ _ _ sound moved => sound.step moved
    obtain ⟨more,t,run',accepted,sent,nicFound',waits'⟩ :=
      accepts sound nicFound waits (by rw [none,List.length_nil]; omega) fits.2
    exact ⟨_,t,run.trans run',accepted,sent.trans none,nicFound',waits'⟩

theorem run_sound (run : Run Step (e1000TxInit txDescs txBuffers) past s) : Sound s :=
  run.invariant (init_sound txDescs txBuffers) fun _ _ _ sound moved => sound.step moved

/-- In every interleaving the frames leave in the order in which they were accepted and as
they were given; what `e1000_send` was called with was accepted, or refused as too long, or
refused because the ring is full, or is still in a call. -/
theorem sent_in_order (run : Run Step (e1000TxInit txDescs txBuffers) past s) :
    s.sent <+: s.accepted ∧ Counted s ∧ Refusals s := by
  obtain ⟨sound,counted,refusals⟩ := run.invariant (init_accounted txDescs txBuffers)
    fun _ _ _ accounted moved => accounted.step moved
  refine ⟨?_,counted,refusals⟩
  rcases sound with working | dead
  · obtain ⟨first,waiting,filled,ring⟩ := working.ring
    exact ring.accepted ▸ List.prefix_append ..
  · exact dead.order

/-- As long as fewer than eight frames are owed, the card alone sends them all; once eight
are, nothing is sent or accepted any more, whatever is done. -/
theorem stuck_iff (run : Run Step (e1000TxInit txDescs txBuffers) past s) :
    s.accepted.length ≤ s.sent.length + numTxDesc ∧
    (s.accepted.length < s.sent.length + numTxDesc → ∃ future t, Run Step s future t ∧
      (∀ entry ∈ future, entry.2 = .card) ∧ t.accepted = s.accepted ∧ t.sent = s.accepted) ∧
    (s.accepted.length = s.sent.length + numTxDesc → ∀ future t, Run Step s future t →
      t.sent = s.sent ∧ t.accepted = s.accepted) := by
  rcases run_sound run with working | dead
  · obtain ⟨first,waiting,filled,ring⟩ := working.ring
    exact ⟨working.owes.le,fun _ => ring.drains,fun owed => absurd owed working.owes.ne⟩
  · exact ⟨dead.owed.le,fun less => absurd dead.owed less.ne,fun _ future t run => dead.stays run⟩

end

def untouched : State := e1000TxInit (fun i => ⟨i,0,0,0⟩) fun _ _ => 0

/-- Eight frames while the card rests. -/
theorem stuck_iff_eight : ∃ past s, Run Step untouched past s ∧
    s.accepted = List.replicate 8 [7] ∧ ∀ future t, Run Step s future t → t.sent = [] := by
  obtain ⟨past,s,run,accepted,none,-,-⟩ := accepts_all (fun i => ⟨i,0,0,0⟩) (fun _ _ => 0)
    (List.replicate 8 [7]) (by decide) (by decide)
  refine ⟨past,s,run,accepted,fun future t more => ?_⟩
  have owed : s.accepted.length = s.sent.length + numTxDesc := by simp [accepted,none,numTxDesc]
  rw [((stuck_iff run).2.2 owed future t more).1,none]

/-- Two of them, and then the card. -/
theorem sent_in_order_two : ∃ past s, Run Step untouched past s ∧ s.accepted = [[7],[8]] ∧
    s.sent <+: s.accepted ∧ s.sent.length = 2 := by
  obtain ⟨past,s,run,accepted,none,-,-⟩ := accepts_all (fun i => ⟨i,0,0,0⟩) (fun _ _ => 0)
    [[7],[8]] (by decide) (by decide)
  rcases run_sound run with working | dead
  · obtain ⟨first,waiting,filled,ring⟩ := working.ring
    obtain ⟨future,t,run',-,accepted',sent⟩ := ring.drains
    refine ⟨_,t,run.trans run',accepted'.trans accepted,(sent_in_order (run.trans run')).1,?_⟩
    rw [sent,accepted]
    rfl
  · have owed := dead.owed
    simp [accepted,none,numTxDesc] at owed

end NimrodOS.E1000.Send
