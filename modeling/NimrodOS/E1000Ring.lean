import Mathlib.Algebra.Group.Fin.Basic
import NimrodOS.E1000
import NimrodOS.Lib.Bits
import NimrodOS.Lib.FlagRing
import NimrodOS.Lib.Run

/-! Who owns which buffer of the ring, in every interleaving of the card with the handler. -/
namespace NimrodOS.E1000

open Wire Transition FlagRing

/-- The descriptor is marked as done. -/
def State.Full (s : State) (i : Fin numRxDesc) : Prop := (s.rxDescs i).status &&& rdescStatDd ≠ 0

/-- A frame is in its buffer, with its length in the descriptor. -/
structure State.Item (s : State) (i : Fin numRxDesc) (p : Packet) : Prop where
  buffer : p.buffer = i
  len : (s.rxDescs i).length = p.len
  some' : 0 < p.contents.length
  fits : p.contents.length ≤ rxBufSizeE1000
  length : p.len.toNat = p.contents.length
  stands : At (s.rxBuffers i) 0 p.contents

/-- The frames that are marked, numbered from `first` on, and how many buffers from there
on belong to the card at most. -/
structure Ring (s : State) (first limit : Nat) (waiting : List Packet) : Prop where
  holds : Holds s.Full s.Item first waiting
  addr : ∀ i, (s.rxDescs i).addr = i
  head : s.rdh = slot numRxDesc (first + waiting.length)
  tail : s.rdt = slot numRxDesc (first + limit)
  within : waiting.length ≤ limit

/-- What holds at each point of the handler. -/
inductive Sound (s : State) : Prop
  | between {first : Nat} {waiting : List Packet} (ring : Ring s first 31 waiting)
      (cur : s.rxCur = slot numRxDesc first) (point : s.point = .idle ∨ s.point = .test)
      (accepted : s.accepted = s.packets ++ waiting)
  | receive {first : Nat} {p : Packet} {waiting : List Packet}
      (ring : Ring s first 31 (p :: waiting)) (cur : s.rxCur = slot numRxDesc first)
      (point : s.point = .receive) (accepted : s.accepted = s.packets ++ p :: waiting)
  | clear {first : Nat} {p : Packet} {waiting : List Packet} (ring : Ring s first 31 (p :: waiting))
      (cur : s.rxCur = slot numRxDesc first) (point : s.point = .clear)
      (accepted : s.accepted = s.packets ++ waiting)
  | advance {first : Nat} {waiting : List Packet} (ring : Ring s first 30 waiting)
      (cur : s.rxCur = slot numRxDesc (first + 31)) (point : s.point = .advance)
      (accepted : s.accepted = s.packets ++ waiting)
  | tell {first : Nat} {waiting : List Packet} (ring : Ring s first 30 waiting)
      (cur : s.rxCur = slot numRxDesc first) (point : s.point = .tell (slot numRxDesc (first + 31)))
      (accepted : s.accepted = s.packets ++ waiting)

variable {s t : State} {f : Frame} {op : Op} {first limit : Nat} {p : Packet}
  {waiting : List Packet}

theorem init_sound (rxDescs : Fin numRxDesc → RxDesc) (rxBuffers : Fin numRxDesc → Nat → Byte) :
    Sound (e1000RxInit rxDescs rxBuffers) := by
  have ring : Ring (e1000RxInit rxDescs rxBuffers) 0 31 [] := by
    refine ⟨.empty ?_,fun _ => rfl,rfl,rfl,Nat.zero_le 31⟩
    intro i full
    exact full (BitVec.zero_and ..)
  exact .between ring rfl (.inl rfl) rfl

section Descriptors

variable {i : Fin numRxDesc}

theorem fill_desc (s : State) (f : Frame) : (s.fill f).rxDescs s.rdh =
    {s.rxDescs s.rdh with
      length := f.length
      status := (s.rxDescs s.rdh).status ||| rdescStatDd} := Function.update_self ..

theorem fill_desc_of_ne (f : Frame) (other : i ≠ s.rdh) : (s.fill f).rxDescs i = s.rxDescs i :=
  Function.update_of_ne other ..

theorem clear_desc (s : State) : s.clear.rxDescs s.rxCur = {s.rxDescs s.rxCur with status := 0} :=
  Function.update_self ..

theorem clear_desc_of_ne (other : i ≠ s.rxCur) : s.clear.rxDescs i = s.rxDescs i :=
  Function.update_of_ne other ..

theorem fill_buffer (s : State) (f : Frame) : (s.fill f).rxBuffers (s.rxDescs s.rdh).addr =
    write (s.rxBuffers (s.rxDescs s.rdh).addr) 0 f.data := Function.update_self ..

theorem fill_buffer_of_ne (f : Frame) (other : i ≠ (s.rxDescs s.rdh).addr) :
    (s.fill f).rxBuffers i = s.rxBuffers i := Function.update_of_ne other ..

end Descriptors

theorem slot_before (k : Nat) : slot numRxDesc (k + 31) + 1 = slot numRxDesc k := by
  have turn : slot numRxDesc (k + 31 + 1) = slot numRxDesc k := slot_add_turn k
  rw [slot_add] at turn
  exact turn

namespace Ring

/-- The card owns the buffer at its head, so it has room for one more. -/
theorem room (ring : Ring s first limit waiting) (owned : s.rdh ≠ s.rdt) : waiting.length < limit := by
  refine Nat.lt_of_le_of_ne ring.within fun full => owned ?_
  rw [ring.head,ring.tail,full]

/-- The card's fill leaves the other descriptors and buffers alone. -/
theorem fill (ring : Ring s first limit waiting) (small : limit < numRxDesc)
    (owned : s.rdh ≠ s.rdt) (f : Frame) :
    Ring (s.fill f) first limit (waiting ++ [s.incoming f]) := by
  have room := ring.room owned
  have size : (waiting ++ [s.incoming f]).length = waiting.length + 1 := List.length_append
  have some' := f.some'
  have fits := f.fits
  refine ⟨ring.holds.fill (Nat.lt_of_le_of_lt room small) ?_ ?_,?_,?_,ring.tail,?_⟩
  · rw [← ring.head]
    constructor
    · rw [State.Full,fill_desc,Bits.or_and_same]
      decide
    · refine ⟨ring.addr _,?_,some',fits,?_,?_⟩
      · rw [fill_desc]
        rfl
      · rw [State.incoming,Frame.length,BitVec.toNat_ofNat]
        exact Nat.mod_eq_of_lt (Nat.lt_of_le_of_lt fits (by decide))
      · have written := fill_buffer s f
        rw [ring.addr] at written
        rw [written]
        exact at_write
  · intro i other
    rw [← ring.head] at other
    constructor
    · rw [State.Full,State.Full,fill_desc_of_ne f other]
    · intro q item
      refine ⟨item.buffer,?_,item.some',item.fits,item.length,?_⟩
      · rw [fill_desc_of_ne f other]
        exact item.len
      · rw [fill_buffer_of_ne f (by rwa [ring.addr])]
        exact item.stands
  · intro i
    by_cases here : i = s.rdh
    · subst here
      rw [fill_desc]
      exact ring.addr _
    · rw [fill_desc_of_ne f here]
      exact ring.addr i
  · rw [size,← Nat.add_assoc,slot_add,← ring.head]
    rfl
  · rw [size]
    exact room

theorem same_marks (descs : t.rxDescs = s.rxDescs) (buffers : t.rxBuffers = s.rxBuffers) :
    t.Full = s.Full ∧ t.Item = s.Item := by
  constructor
  · funext i
    rw [State.Full,State.Full,descs]
  · funext i q
    apply propext
    constructor
    · rintro ⟨buffer,len,some',fits,length,stands⟩
      exact ⟨buffer,descs ▸ len,some',fits,length,buffers ▸ stands⟩
    · rintro ⟨buffer,len,some',fits,length,stands⟩
      exact ⟨buffer,descs ▸ len,some',fits,length,buffers ▸ stands⟩

/-- The handler's other steps leave the ring as it is. -/
theorem same (ring : Ring s first limit waiting) (descs : t.rxDescs = s.rxDescs)
    (buffers : t.rxBuffers = s.rxBuffers) (head : t.rdh = s.rdh) (tail : t.rdt = s.rdt) :
    Ring t first limit waiting := by
  obtain ⟨full,item⟩ := same_marks descs buffers
  refine ⟨?_,?_,head.trans ring.head,tail.trans ring.tail,ring.within⟩
  · rw [full,item]
    exact ring.holds
  · rw [descs]
    exact ring.addr

/-- The card is told of the buffer behind the last that it owned. -/
theorem tell (ring : Ring s first 30 waiting) (descs : t.rxDescs = s.rxDescs)
    (buffers : t.rxBuffers = s.rxBuffers) (head : t.rdh = s.rdh)
    (tail : t.rdt = slot numRxDesc (first + 31)) : Ring t first 31 waiting := by
  obtain ⟨full,item⟩ := same_marks descs buffers
  refine ⟨?_,?_,head.trans ring.head,tail,Nat.le_succ_of_le ring.within⟩
  · rw [full,item]
    exact ring.holds
  · rw [descs]
    exact ring.addr

/-- What the handler reads of the first waiting frame. -/
theorem received (ring : Ring s first limit (p :: waiting)) (cur : s.rxCur = slot numRxDesc first) :
    s.receive = {s with packets := s.packets ++ [p]} := by
  have item := ring.holds.head.2
  rw [← cur] at item
  have some' := item.some'
  have fits := item.fits
  have length := item.length
  have lets : (s.rxDescs s.rxCur).length > 0 ∧
      (s.rxDescs s.rxCur).length ≤ BitVec.ofNat 16 rxBufSizeE1000 := by
    rw [item.len]
    simp only [rxBufSizeE1000] at fits ⊢
    bv_omega
  have contents : bytesFrom (s.rxBuffers s.rxCur) 0 p.len.toNat = p.contents := by
    rw [length]
    exact item.stands.bytesFrom
  have packet : (⟨s.rxCur,p.len,p.contents⟩ : Packet) = p := by rw [← item.buffer]
  unfold State.receive
  dsimp only
  rw [if_pos lets,State.netHandlePacket,item.len,contents,packet]

/-- A cleared descriptor's frame no longer waits, but its buffer is not the card's before
the card is told. -/
theorem clear (ring : Ring s first 31 (p :: waiting)) (cur : s.rxCur = slot numRxDesc first) :
    Ring s.clear (first + 1) 30 waiting := by
  have within := ring.within
  rw [List.length_cons] at within
  refine ⟨ring.holds.take ?_ ?_,?_,?_,ring.tail.trans ?_,Nat.le_of_succ_le_succ within⟩
  · rw [← cur,State.Full,clear_desc]
    exact not_not_intro (BitVec.zero_and ..)
  · intro i other
    rw [← cur] at other
    constructor
    · rw [State.Full,State.Full,clear_desc_of_ne other]
    · rintro q ⟨buffer,len,some',fits,length,stands⟩
      refine ⟨buffer,?_,some',fits,length,stands⟩
      rwa [clear_desc_of_ne other]
  · intro i
    by_cases here : i = s.rxCur
    · subst here
      rw [clear_desc]
      exact ring.addr _
    · rw [clear_desc_of_ne here]
      exact ring.addr i
  · refine ring.head.trans (congrArg (slot numRxDesc) ?_)
    rw [List.length_cons]
    omega
  · rfl

end Ring

theorem accepted_fill {rest : List Packet} (accepted : s.accepted = s.packets ++ rest) (f : Frame) :
    (s.fill f).accepted = (s.fill f).packets ++ (rest ++ [s.incoming f]) := by
  rw [← List.append_assoc]
  exact congrArg (· ++ [s.incoming f]) accepted

theorem Sound.fill (sound : Sound s) (owned : s.rdh ≠ s.rdt) (f : Frame) : Sound (s.fill f) := by
  cases sound with
  | between ring cur point accepted =>
    exact .between (ring.fill (by decide) owned f) cur point (accepted_fill accepted f)
  | receive ring cur point accepted =>
    exact .receive (ring.fill (by decide) owned f) cur point (accepted_fill accepted f)
  | clear ring cur point accepted =>
    exact .clear (ring.fill (by decide) owned f) cur point (accepted_fill accepted f)
  | advance ring cur point accepted =>
    exact .advance (ring.fill (by decide) owned f) cur point (accepted_fill accepted f)
  | tell ring cur point accepted =>
    exact .tell (ring.fill (by decide) owned f) cur point (accepted_fill accepted f)

theorem Sound.handler (sound : Sound s) : Sound s.handler := by
  cases sound with
  | @between first waiting ring cur point accepted =>
    rcases point with idle | test
    · simp only [State.handler,idle]
      refine .between (ring.same rfl rfl rfl rfl) cur ?_ accepted
      split_ifs
      · exact .inr rfl
      · exact .inl rfl
    · simp only [State.handler,test]
      split_ifs with full
      · have some' : waiting ≠ [] := by
          rw [← ring.holds.full_iff,← cur]
          exact full
        obtain ⟨p,rest,rfl⟩ := List.exists_cons_of_ne_nil some'
        exact .receive (ring.same rfl rfl rfl rfl) cur rfl accepted
      · exact .between (ring.same rfl rfl rfl rfl) cur (.inl rfl) accepted
  | receive ring cur point accepted =>
    simp only [State.handler,point,ring.received cur]
    refine .clear (ring.same rfl rfl rfl rfl) cur rfl ?_
    rw [accepted,List.append_assoc]
    rfl
  | clear ring cur point accepted =>
    simp only [State.handler,point]
    refine .advance ((ring.clear cur).same rfl rfl rfl rfl) ?_ rfl accepted
    rw [Nat.add_assoc]
    exact cur.trans (slot_add_turn _).symm
  | @advance first waiting ring cur point accepted =>
    simp only [State.handler,point]
    refine .tell (ring.same rfl rfl rfl rfl) ?_ (congrArg Point.tell cur) accepted
    rw [cur]
    exact slot_before first
  | tell ring cur point accepted =>
    simp only [State.handler,point]
    exact .between (ring.tell rfl rfl rfl rfl) cur (.inr rfl) accepted

theorem Sound.step (sound : Sound s) (moved : Step s op t) : Sound t := by
  cases moved with
  | fill f owned => exact sound.fill owned f
  | raise bits =>
    cases sound with
    | between ring cur point accepted => exact .between (ring.same rfl rfl rfl rfl) cur point accepted
    | receive ring cur point accepted => exact .receive (ring.same rfl rfl rfl rfl) cur point accepted
    | clear ring cur point accepted => exact .clear (ring.same rfl rfl rfl rfl) cur point accepted
    | advance ring cur point accepted => exact .advance (ring.same rfl rfl rfl rfl) cur point accepted
    | tell ring cur point accepted => exact .tell (ring.same rfl rfl rfl rfl) cur point accepted
  | handler => exact sound.handler

/-- Between two rounds the card's last buffer is the one behind `rx_cur`; what was passed on
is the first part of what was accepted; the card's next buffer holds neither a frame that
waits nor the one that is being passed on; and where the loop stops, nothing waits. -/
structure State.InOrder (s : State) : Prop where
  tail : s.point = .idle ∨ s.point = .test → s.rdt = s.rxCur - 1
  delivered : s.packets <+: s.accepted
  waits : ∀ p ∈ s.accepted.drop s.packets.length, p.buffer ≠ (s.rxDescs s.rdh).addr
  busy : s.point = .clear → s.rxCur ≠ (s.rxDescs s.rdh).addr
  drained : s.point = .test → ¬s.Full s.rxCur → s.packets = s.accepted

namespace Ring

/-- A waiting frame's buffer is not the one to be filled next. -/
theorem apart (ring : Ring s first limit waiting) (waits : p ∈ waiting) :
    p.buffer ≠ (s.rxDescs s.rdh).addr := by
  obtain ⟨k,inside,rfl⟩ := List.getElem_of_mem waits
  have room := ring.holds.room
  rw [(ring.holds.filled k inside).2.buffer,ring.addr,ring.head]
  exact slot_ne (by omega) (by omega)

theorem between (ring : Ring s first 31 waiting) (cur : s.rxCur = slot numRxDesc first) :
    s.rdt = s.rxCur - 1 := by
  rw [ring.tail,cur]
  exact eq_sub_of_add_eq (slot_before first)

end Ring

theorem drop_accepted {rest : List Packet} (accepted : s.accepted = s.packets ++ rest) :
    s.packets <+: s.accepted ∧ s.accepted.drop s.packets.length = rest := by
  rw [accepted]
  exact ⟨List.prefix_append ..,List.drop_left⟩

theorem Sound.inOrder (sound : Sound s) : s.InOrder := by
  cases sound with
  | between ring cur point accepted =>
    obtain ⟨delivered,rest⟩ := drop_accepted accepted
    refine ⟨fun _ => ring.between cur,delivered,?_,?_,?_⟩
    · rw [rest]
      exact fun p waits => ring.apart waits
    · intro clear
      rw [clear] at point
      rcases point with idle | test
      · cases idle
      · cases test
    · intro _ none
      rw [cur,ring.holds.full_iff,not_not] at none
      rw [accepted,none,List.append_nil]
  | receive ring cur point accepted =>
    obtain ⟨delivered,rest⟩ := drop_accepted accepted
    refine ⟨fun _ => ring.between cur,delivered,?_,?_,?_⟩
    · rw [rest]
      exact fun p waits => ring.apart waits
    · simp [point]
    · simp [point]
  | clear ring cur point accepted =>
    obtain ⟨delivered,rest⟩ := drop_accepted accepted
    refine ⟨fun _ => ring.between cur,delivered,?_,?_,?_⟩
    · rw [rest]
      exact fun p waits => ring.apart (List.mem_cons_of_mem _ waits)
    · intro _
      rw [cur,← ring.holds.head.2.buffer]
      exact ring.apart (List.mem_cons_self ..)
    · simp [point]
  | advance ring cur point accepted =>
    obtain ⟨delivered,rest⟩ := drop_accepted accepted
    refine ⟨?_,delivered,?_,?_,?_⟩
    · simp [point]
    · rw [rest]
      exact fun p waits => ring.apart waits
    · simp [point]
    · simp [point]
  | tell ring cur point accepted =>
    obtain ⟨delivered,rest⟩ := drop_accepted accepted
    refine ⟨?_,delivered,?_,?_,?_⟩
    · simp [point]
    · rw [rest]
      exact fun p waits => ring.apart waits
    · simp [point]
    · simp [point]

/-- In every interleaving of the card's steps with the handler's. -/
theorem frames_in_order {rxDescs : Fin numRxDesc → RxDesc} {rxBuffers : Fin numRxDesc → Nat → Byte}
    {past : List (State × Op)} (run : Run Step (e1000RxInit rxDescs rxBuffers) past s) : s.InOrder :=
  (run.invariant (init_sound rxDescs rxBuffers) fun _ _ _ sound moved => sound.step moved).inOrder

/-! While the card rests, the handler comes to its end. -/

/-- Five steps for each waiting frame, and what is left of the current round. -/
def State.work (s : State) : Nat :=
  5 * (s.accepted.length - s.packets.length) +
    match s.point with
    | .idle => 0
    | .test => 1
    | .receive => 0
    | .clear => 4
    | .advance => 3
    | .tell _ => 2

theorem Sound.work_lt (sound : Sound s) (busy : s.point ≠ .idle) : s.handler.work < s.work := by
  cases sound with
  | between ring cur point accepted =>
    have test := point.resolve_left busy
    simp only [State.handler,State.work,test]
    split_ifs <;> simp
  | receive ring cur point accepted =>
    simp only [State.handler,State.work,point,ring.received cur,accepted,List.length_append,
      List.length_cons,List.length_nil]
    omega
  | clear ring cur point accepted =>
    simp only [State.handler,State.work,State.clear,point]
    omega
  | advance ring cur point accepted =>
    simp only [State.handler,State.work,point]
    omega
  | tell ring cur point accepted =>
    simp only [State.handler,State.work,point]
    omega

/-- The loop ends at its test only, where nothing waits. -/
theorem Sound.stops (sound : Sound s) (busy : s.point ≠ .idle) (ends : s.handler.point = .idle) :
    s.handler.packets = s.handler.accepted := by
  have test : s.point = .test := by
    cases point : s.point with
    | idle => exact absurd point busy
    | test => rfl
    | _ => simp [State.handler,point] at ends
  simp only [State.handler,test] at ends ⊢
  split_ifs at ends with full
  exact sound.inOrder.drained test full

/-- A handler that is left alone ends with every accepted frame passed on. -/
theorem Sound.drains (sound : Sound s) (busy : s.point ≠ .idle) : ∃ k,
    (State.handler^[k] s).point = .idle ∧
      (State.handler^[k] s).packets = (State.handler^[k] s).accepted := by
  generalize bound : s.work = work
  induction work using Nat.strongRecOn generalizing s with
  | ind work ih =>
    by_cases ends : s.handler.point = .idle
    · exact ⟨1,ends,sound.stops busy ends⟩
    · obtain ⟨k,idle,all⟩ := ih _ (bound ▸ sound.work_lt busy) sound.handler ends rfl
      refine ⟨k + 1,?_⟩
      rw [Function.iterate_succ_apply]
      exact ⟨idle,all⟩

theorem handler_run (s : State) (k : Nat) : ∃ past, Run Step s past (State.handler^[k] s) := by
  induction k with
  | zero => exact ⟨[],.nil⟩
  | succ k ih =>
    obtain ⟨past,run⟩ := ih
    rw [Function.iterate_succ_apply']
    exact ⟨_,run.snoc .handler⟩

def oneByte : Frame := ⟨[7],by decide,by decide⟩

def threeBytes : Frame := ⟨[1,2,3],by decide,by decide⟩

def untouched : State := e1000RxInit (fun i => ⟨i,0,0⟩) fun _ _ => 0

/-- A frame is there and its interrupt pending. -/
def arrived : State := {untouched.fill oneByte with icr := (untouched.fill oneByte).icr ||| icrRxt0}

/-- Two frames, the second of which arrives when the first is passed on but still in its buffer. -/
theorem frames_in_order_between : ∃ past s, Run Step untouched past s ∧ s.InOrder ∧
    s.point = .idle ∧ s.packets = [⟨0,1,[7]⟩,⟨1,3,[1,2,3]⟩] := by
  have owned : untouched.rdh ≠ untouched.rdt := by decide
  obtain ⟨before,passed⟩ := handler_run arrived 3
  have owned' : (State.handler^[3] arrived).rdh ≠ (State.handler^[3] arrived).rdt := by decide
  obtain ⟨after,handled⟩ := handler_run ((State.handler^[3] arrived).fill threeBytes) 9
  have arrives := passed.trans (Run.cons (.fill threeBytes owned') handled)
  have run := Run.cons (.fill oneByte owned) (Run.cons (.raise icrRxt0) arrives)
  exact ⟨_,_,run,frames_in_order run,by rfl,by decide⟩

end NimrodOS.E1000
