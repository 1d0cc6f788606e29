import NimrodOS.Lib.Bits
import NimrodOS.Rtl8139

/-! Runs of the card beside the handler. The card may store frames at any time, also while
the handler is in its loop. -/
namespace NimrodOS.Rtl8139

open Wire RecordRing Transition

/-- Where the handler stands, with the interrupt status that it has read. -/
inductive Phase where
  | idle
  | loop (status : Half)
  | done (status : Half)

/-- The driver with all frames that the card has accepted. -/
structure System where
  state : State
  phase : Phase
  accepted : List Frame

def System.start (memory : Nat → Byte) : System := ⟨rtl8139Init memory,.idle,[]⟩

inductive System.Op where
  | store (f : Frame)
  | raise (status : Half)
  | interrupt
  | round
  | leave
  | acknowledge

/-- The card accepts a frame only where it leaves a place free behind it, and raises its
other interrupts as it likes. -/
inductive System.Step : System → System.Op → System → Prop
  | store {s : System} (f : Frame) (room : s.state.card.unread + format.span f < rxBufSize) :
      Step s (.store f) {s with state := s.state.store f, accepted := s.accepted ++ [f]}
  | raise {s : System} (status : Half) : Step s (.raise status) {s with
      state := {s.state with card := {s.state.card with isr := s.state.card.isr ||| status}}}
  | interrupt {s : System} (idle : s.phase = .idle) : Step s .interrupt {s with
      phase := if s.state.card.isr &&& intRok ≠ 0 then .loop s.state.card.isr
        else .done s.state.card.isr}
  | round {s : System} {t : State} {status : Half} (inside : s.phase = .loop status)
      (goes : rxRound s.state = some t) : Step s .round {s with state := t}
  | leave {s : System} {status : Half} (inside : s.phase = .loop status)
      (ends : rxRound s.state = none) : Step s .leave {s with phase := .done status}
  | acknowledge {s : System} {status : Half} (ended : s.phase = .done status) :
      Step s .acknowledge {s with state := s.state.acknowledge status, phase := .idle}

/-- Some of the accepted frames are taken, the others wait. -/
def System.Synced (s : System) (taken pending : List Frame) : Prop :=
  s.accepted = taken ++ pending ∧ Rtl8139.Synced s.state taken pending

/-- All frames as packets, each where the card stored it. -/
def storedPackets (frames : List Frame) : List Packet := (placed format 0 frames).map packetAt

/-- The header that a round reads is that of an accepted frame, which stands there whole. -/
def System.ReadsFrame (s : System) : Prop :=
  ∃ before f after, s.accepted = before ++ f :: after ∧
    s.state.rxOffset.toNat % rxBufSize = extent format before % rxBufSize ∧
    At s.state.rxBuffer (extent format before % rxBufSize) (format.bytes f)

/-- Each batch is stored, then the handler runs. -/
def serve (fuel : Nat) : List (List Frame) → State → Option State
  | [],s => some s
  | batch :: batches,s => (rtl8139IrqHandler fuel (batch.foldl State.store s)).bind (serve fuel batches)

variable {s t : System} {u v : State} {op : System.Op} {past : List (System × System.Op)}
  {taken pending batch frames : List Frame} {batches : List (List Frame)} {f : Frame}
  {memory : Nat → Byte} {fuel : Nat} {status : Half}

theorem start_synced (memory : Nat → Byte) : (System.start memory).Synced [] [] :=
  ⟨rfl,init_synced memory⟩

namespace Synced

/-- The interrupt status is apart from the ring. -/
theorem isr (synced : Synced u taken pending) (status : Half) :
    Synced {u with card := {u.card with isr := status}} taken pending :=
  ⟨synced.laid,synced.room,synced.offset,synced.reading,synced.storing,synced.packets⟩

theorem round_eq_none (synced : Synced u taken pending) (ends : rxRound u = none) : pending = [] := by
  cases pending with
  | nil => rfl
  | cons f rest =>
    obtain ⟨t,goes,-⟩ := synced.round_cons
    rw [ends] at goes
    cases goes

theorem round_eq_some (synced : Synced u taken pending) (goes : rxRound u = some v) :
    ∃ f rest, pending = f :: rest ∧ Synced v (taken ++ [f]) rest := by
  cases pending with
  | nil =>
    rw [synced.round_nil] at goes
    cases goes
  | cons f rest =>
    obtain ⟨t,goes',after⟩ := synced.round_cons
    obtain rfl : t = v := Option.some.inj (goes'.symm.trans goes)
    exact ⟨f,rest,rfl,after⟩

end Synced

theorem System.Synced.step (synced : s.Synced taken pending) (moved : System.Step s op t) :
    ∃ taken pending, t.Synced taken pending := by
  obtain ⟨accepted,synced⟩ := synced
  cases moved with
  | store f room =>
    refine ⟨taken,pending ++ [f],?_,synced.store room⟩
    rw [← List.append_assoc,← accepted]
  | raise status => exact ⟨taken,pending,accepted,synced.isr _⟩
  | interrupt idle => exact ⟨taken,pending,accepted,synced⟩
  | round inside goes =>
    obtain ⟨f,rest,rfl,after⟩ := synced.round_eq_some goes
    refine ⟨taken ++ [f],rest,?_,after⟩
    rw [accepted,List.append_assoc]
    rfl
  | leave inside ends => exact ⟨taken,pending,accepted,synced⟩
  | acknowledge ended => exact ⟨taken,pending,accepted,synced.isr _⟩

theorem synced_run (run : Run System.Step (System.start memory) past s) :
    ∃ taken pending, s.Synced taken pending := by
  have kept : ∀ s op t, (∃ taken pending, System.Synced s taken pending) → System.Step s op t →
      ∃ taken pending, System.Synced t taken pending := by
    rintro s op t ⟨taken,pending,synced⟩ moved
    exact synced.step moved
  exact run.invariant ⟨[],[],start_synced memory⟩ kept

theorem packetsOf_legal (legal : ∀ f ∈ frames, f.Forwarded) : packetsOf frames = storedPackets frames := by
  refine congrArg (List.map packetAt) (List.filter_eq_self.mpr ?_)
  intro entry member
  exact decide_eq_true (legal entry.2 (mem_of_placed member))

theorem storedPackets_append (frames more : List Frame) : storedPackets (frames ++ more) =
    storedPackets frames ++ (placed format (extent format frames) more).map packetAt := by
  rw [storedPackets,placed_append,List.map_append,Nat.zero_add]
  rfl

/-- What is taken was passed on, and the rest comes behind it. -/
theorem System.Synced.packets (synced : s.Synced taken pending) (legal : ∀ f ∈ s.accepted, f.Forwarded) :
    storedPackets s.accepted = s.state.packets ++
      (placed format (extent format taken) pending).map packetAt := by
  have before : ∀ f ∈ taken, f.Forwarded := fun f member =>
    legal f (synced.1 ▸ List.mem_append_left _ member)
  rw [synced.2.packets,packetsOf_legal before,synced.1,storedPackets_append]

/-- When the loop ends, nothing waits. -/
theorem System.Synced.leave (synced : s.Synced taken pending) (left : System.Step s .leave t) :
    s.state.packets = packetsOf s.accepted := by
  cases left with
  | leave inside ends =>
    rw [synced.1,synced.2.round_eq_none ends,List.append_nil]
    exact synced.2.packets

theorem System.Synced.round (synced : s.Synced taken pending) (goes : System.Step s .round t) :
    s.ReadsFrame := by
  cases goes with
  | round inside goes =>
    obtain ⟨f,rest,rfl,-⟩ := synced.2.round_eq_some goes
    exact ⟨taken,f,rest,synced.1,synced.2.offset,(laid_cons.mp synced.2.laid).1⟩

/-! The handler as a whole. -/

theorem Synced.loop (synced : Synced u taken pending) (enough : pending.length < fuel) :
    ∃ v, rxLoop fuel u = some v ∧ Synced v (taken ++ pending) [] := by
  induction pending generalizing u taken fuel with
  | nil =>
    obtain ⟨fuel,rfl⟩ := Nat.exists_eq_succ_of_ne_zero (Nat.ne_of_gt enough)
    refine ⟨u,?_,by rwa [List.append_nil]⟩
    rw [rxLoop,synced.round_nil]
  | cons f rest ih =>
    obtain ⟨fuel,rfl⟩ := Nat.exists_eq_succ_of_ne_zero (Nat.ne_of_gt (Nat.zero_lt_of_lt enough))
    obtain ⟨v,goes,after⟩ := synced.round_cons
    obtain ⟨w,ends,done⟩ := ih after (Nat.lt_of_succ_lt_succ enough)
    refine ⟨w,?_,by simpa using done⟩
    rw [rxLoop,goes]
    exact ends

theorem Synced.stored (synced : Synced u taken pending)
    (fits : extent format pending + extent format batch < rxBufSize) :
    Synced (batch.foldl State.store u) taken (pending ++ batch) := by
  induction batch generalizing u pending with
  | nil => simpa using synced
  | cons f batch ih =>
    rw [extent_cons] at fits
    have next := synced.store (f := f) (by rw [synced.unread]; omega)
    have rest := ih next (by rw [extent_append,extent_cons,extent_nil]; omega)
    rwa [List.append_assoc,List.singleton_append] at rest

/-- A batch that is in the ring has raised the interrupt. -/
theorem stored_raises (more : batch ≠ []) : (batch.foldl State.store u).card.isr &&& intRok ≠ 0 := by
  obtain ⟨before,f,rfl⟩ := List.eq_nil_or_concat batch |>.resolve_left more
  rw [List.concat_eq_append,List.foldl_append]
  dsimp only [List.foldl_cons,List.foldl_nil,State.store]
  rw [Bits.or_and_same]
  decide

theorem Synced.handled (synced : Synced u taken []) (fits : extent format batch < rxBufSize)
    (enough : batch.length < fuel) :
    ∃ v, rtl8139IrqHandler fuel (batch.foldl State.store u) = some v ∧
      Synced v (taken ++ batch) [] := by
  have stored : Synced (batch.foldl State.store u) taken batch := synced.stored (by simpa using fits)
  unfold rtl8139IrqHandler
  dsimp only
  split_ifs with ready
  · obtain ⟨v,ends,done⟩ := stored.loop enough
    rw [ends]
    exact ⟨_,rfl,done.isr _⟩
  · by_cases empty : batch = []
    · subst empty
      refine ⟨_,rfl,?_⟩
      rw [List.append_nil]
      exact stored.isr _
    · exact absurd (stored_raises empty) ready

/-! The handler's calls are runs. -/

theorem stores_run (frames : List Frame) (synced : Synced u taken pending)
    (fits : extent format pending + extent format batch < rxBufSize) :
    ∃ past, Run System.Step ⟨u,.idle,frames⟩ past
      ⟨batch.foldl State.store u,.idle,frames ++ batch⟩ := by
  induction batch generalizing u pending frames with
  | nil =>
    rw [List.append_nil]
    exact ⟨[],.nil⟩
  | cons f batch ih =>
    rw [extent_cons] at fits
    have room : u.card.unread + format.span f < rxBufSize := by
      rw [synced.unread]
      omega
    obtain ⟨past,run⟩ := ih (frames ++ [f]) (synced.store room)
      (by rw [extent_append,extent_cons,extent_nil]; omega)
    rw [List.append_assoc] at run
    exact ⟨_,Run.cons (.store (s := ⟨u,.idle,frames⟩) f room) run⟩

theorem loop_run (frames : List Frame) (ends : rxLoop fuel u = some v) :
    ∃ past, Run System.Step ⟨u,.loop status,frames⟩ past ⟨v,.done status,frames⟩ := by
  induction fuel generalizing u with
  | zero => cases ends
  | succ fuel ih =>
    rw [rxLoop] at ends
    cases round : rxRound u with
    | none =>
      rw [round] at ends
      obtain rfl : u = v := Option.some.inj ends
      exact ⟨_,Run.single (.leave (s := ⟨u,.loop status,frames⟩) rfl round)⟩
    | some t =>
      rw [round] at ends
      obtain ⟨past,run⟩ := ih ends
      exact ⟨_,Run.cons (.round (s := ⟨u,.loop status,frames⟩) rfl round) run⟩

theorem handler_run (frames : List Frame) (returns : rtl8139IrqHandler fuel u = some v) :
    ∃ past, Run System.Step ⟨u,.idle,frames⟩ past ⟨v,.idle,frames⟩ := by
  have enter := System.Step.interrupt (s := ⟨u,.idle,frames⟩) rfl
  unfold rtl8139IrqHandler at returns
  dsimp only at enter returns
  split_ifs at enter returns with ready
  · obtain ⟨t,ends,rfl⟩ := Option.map_eq_some_iff.mp returns
    obtain ⟨past,run⟩ := loop_run frames ends
    exact ⟨_,(Run.cons enter run).snoc (.acknowledge rfl)⟩
  · obtain rfl := Option.some.inj returns
    exact ⟨_,(Run.single enter).snoc (.acknowledge rfl)⟩

/-- Whatever the batches, the handler takes each of them whole. -/
theorem serve_run (frames : List Frame) (synced : Synced u taken [])
    (fits : ∀ batch ∈ batches, extent format batch < rxBufSize)
    (enough : ∀ batch ∈ batches, batch.length < fuel) :
    ∃ v, serve fuel batches u = some v ∧ Synced v (taken ++ batches.flatten) [] ∧
      ∃ past, Run System.Step ⟨u,.idle,frames⟩ past ⟨v,.idle,frames ++ batches.flatten⟩ := by
  induction batches generalizing u taken frames with
  | nil => exact ⟨u,rfl,by simpa using synced,[],by simpa using Run.nil⟩
  | cons batch batches ih =>
    rw [List.forall_mem_cons] at fits enough
    obtain ⟨v,returns,after⟩ := synced.handled fits.1 enough.1
    obtain ⟨w,rest,done,past,run⟩ := ih (frames ++ batch) after fits.2 enough.2
    have room : extent format [] + extent format batch < rxBufSize := by
      rw [extent_nil,Nat.zero_add]
      exact fits.1
    obtain ⟨stores,first⟩ := stores_run frames synced room
    obtain ⟨rounds,second⟩ := handler_run (frames ++ batch) returns
    rw [List.append_assoc] at done run
    refine ⟨w,?_,done,_,(first.trans second).trans run⟩
    rw [serve,returns]
    exact rest

theorem accepted_grows (run : Run System.Step s past t) : s.accepted <+: t.accepted := by
  induction run with
  | nil => exact List.prefix_rfl
  | snoc _ moved ih =>
    refine ih.trans ?_
    cases moved with
    | store f room => exact List.prefix_append _ _
    | _ => exact List.prefix_rfl

/-- What a run shows before one of its steps. -/
theorem entry_synced (run : Run System.Step (System.start memory) past s)
    {entry : System × System.Op} (member : entry ∈ past) :
    ∃ taken pending t, entry.1.Synced taken pending ∧ System.Step entry.1 entry.2 t ∧
      entry.1.accepted <+: s.accepted := by
  obtain ⟨before,after,rfl⟩ := List.append_of_mem member
  obtain ⟨prior,t,moved,rest⟩ := run.split
  obtain ⟨taken,pending,synced⟩ := synced_run prior
  exact ⟨taken,pending,t,synced,moved,accepted_grows ((Run.single moved).trans rest)⟩

/-- Beside any interleaving, every round reads an accepted frame's header, the packets
passed on are the first of the accepted frames, and when the loop ends they are all. For
any split of frames over interrupts the handler returns with all of them passed on. -/
theorem frames_delivered (memory : Nat → Byte) :
    (∀ past s, Run System.Step (System.start memory) past s → (∀ f ∈ s.accepted, f.Forwarded) →
      s.state.packets <+: storedPackets s.accepted ∧
      ∀ entry ∈ past, (entry.2 = .round → entry.1.ReadsFrame) ∧
        (entry.2 = .leave → entry.1.state.packets = storedPackets entry.1.accepted)) ∧
    ∀ fuel batches, (∀ f ∈ batches.flatten, f.Forwarded) →
      (∀ batch ∈ batches, extent format batch < rxBufSize ∧ batch.length < fuel) →
      ∃ t, serve fuel batches (rtl8139Init memory) = some t ∧
        t.packets = storedPackets batches.flatten := by
  constructor
  · intro past s run legal
    obtain ⟨taken,pending,synced⟩ := synced_run run
    refine ⟨⟨_,(synced.packets legal).symm⟩,?_⟩
    intro entry member
    obtain ⟨taken,pending,t,synced,moved,earlier⟩ := entry_synced run member
    constructor
    · intro round
      exact synced.round (round ▸ moved)
    · intro leave
      rw [synced.leave (leave ▸ moved)]
      exact packetsOf_legal fun f known => legal f (earlier.subset known)
  · intro fuel batches legal fits
    obtain ⟨t,served,synced,-⟩ := serve_run [] (init_synced memory)
      (fun batch member => (fits batch member).1) fun batch member => (fits batch member).2
    refine ⟨t,served,?_⟩
    rw [synced.packets,List.nil_append]
    exact packetsOf_legal legal

def zeros (n : Nat) : Frame := ⟨1,List.replicate n 0,by decide⟩

theorem zeros_length (n : Nat) : (zeros n).data.length = n := List.length_replicate

/-- Two frames, an interrupt for each. -/
theorem frames_delivered_twice : ∃ t,
    serve 2 [[zeros 64],[zeros 1518]] (rtl8139Init fun _ => 0) = some t ∧
      t.packets.map Packet.pktData = [4,72] := by
  obtain ⟨t,served,packets⟩ := (frames_delivered fun _ => 0).2 2 [[zeros 64],[zeros 1518]]
    (by simp [Frame.Forwarded,zeros_length])
    (by simp [format_span,zeros_length,roundUp4,rxBufSize])
  refine ⟨t,served,?_⟩
  rw [packets]
  simp [storedPackets,placed,packetAt,format_span,zeros_length,roundUp4,rxBufSize]

/-! Whether what is passed on lies in `rx_buffer`. -/

def Packet.Inside (p : Packet) : Prop := p.pktData + p.rxSize.toNat ≤ rxBufTotal

/-- A frame that is passed on ends in the room behind the ring. -/
def EndsInside (entry : Nat × Frame) : Prop :=
  entry.2.Forwarded → entry.1 % rxBufSize + 4 + entry.2.data.length ≤ rxBufTotal

theorem Frame.Forwarded.length (forwarded : f.Forwarded) : f.length.toNat = f.data.length := by
  have small := forwarded.2
  rw [Frame.length,BitVec.toNat_ofNat]
  exact Nat.mod_eq_of_lt (by omega)

theorem packetAt_inside {entry : Nat × Frame} (forwarded : entry.2.Forwarded) :
    (packetAt entry).Inside ↔ EndsInside entry := by
  rw [Packet.Inside,packetAt,forwarded.length]
  exact ⟨fun ends _ => ends,fun ends => ends forwarded⟩

theorem mem_packetsOf {p : Packet} : p ∈ packetsOf frames ↔
    ∃ entry ∈ placed format 0 frames, entry.2.Forwarded ∧ packetAt entry = p := by
  simp only [packetsOf,List.mem_map,List.mem_filter,decide_eq_true_eq,and_assoc]

theorem packetsOf_inside :
    (∀ p ∈ packetsOf frames, p.Inside) ↔ ∀ entry ∈ placed format 0 frames, EndsInside entry := by
  constructor
  · intro inside entry member forwarded
    exact (packetAt_inside forwarded).mp
      (inside _ (mem_packetsOf.mpr ⟨entry,member,forwarded,rfl⟩)) forwarded
  · intro ends p member
    obtain ⟨entry,placed,forwarded,rfl⟩ := mem_packetsOf.mp member
    exact (packetAt_inside forwarded).mpr (ends entry placed)

/-- A frame starts at a multiple of 4, so at 8188 at the latest. -/
theorem endsInside_of_short {entry : Nat × Frame} (member : entry ∈ placed format 0 frames)
    (short : entry.2.data.length ≤ 1516) : EndsInside entry := by
  obtain ⟨k,start⟩ := placed_aligned span_aligned (Nat.dvd_zero 4) member
  intro _
  simp only [rxBufTotal,rxBufSize,rxBufPad,rxBufWrap]
  omega

/-- Five frames of full size and a shorter one take the ring to offset 8188. -/
def toLastOffset : List Frame := List.replicate 5 (zeros 1518) ++ [zeros 564]

theorem extent_toLastOffset : extent format toLastOffset = 8188 := by
  simp [toLastOffset,List.replicate,format_span,zeros_length,roundUp4]

/-- The next frame starts there. -/
theorem last_offset (memory : Nat → Byte) {n : Nat} (forwarded : (zeros n).Forwarded) :
    ∃ past t, Run System.Step (System.start memory) past t ∧
      t.accepted = toLastOffset ++ [zeros n] ∧
      (⟨8192,BitVec.ofNat 16 n,List.replicate n 0⟩ : Packet) ∈ t.state.packets := by
  have short : ∀ f ∈ toLastOffset ++ [zeros n], f.data.length < 1600 := by
    have small : n < 1600 := by simpa only [zeros_length] using forwarded.2
    simp only [toLastOffset,List.append_assoc,List.forall_mem_append,List.forall_mem_singleton,
      List.mem_replicate,and_imp]
    refine ⟨?_,by rw [zeros_length]; omega,by rwa [zeros_length]⟩
    rintro f - rfl
    rw [zeros_length]
    omega
  have fits : ∀ batch ∈ (toLastOffset ++ [zeros n]).map fun f => [f],
      extent format batch < rxBufSize := by
    simp only [List.forall_mem_map,extent_cons,extent_nil,format_span]
    intro f member
    have := short f member
    simp only [roundUp4,rxBufSize]
    omega
  have single' : ∀ batch ∈ (toLastOffset ++ [zeros n]).map fun f => [f], batch.length < 2 := by
    simp only [List.forall_mem_map,List.length_singleton]
    exact fun _ _ => Nat.lt_succ_self 1
  obtain ⟨v,-,synced,past,run⟩ := serve_run [] (init_synced memory) fits single'
  have single : ((toLastOffset ++ [zeros n]).map fun f => [f]).flatten = toLastOffset ++ [zeros n] := by
    rw [← List.flatMap_def,List.flatMap_singleton']
  rw [single,List.nil_append] at synced run
  refine ⟨past,_,run,rfl,?_⟩
  have last : packetAt (8188,zeros n) = ⟨8192,BitVec.ofNat 16 n,List.replicate n 0⟩ := by
    rw [packetAt,Frame.length,zeros_length]
    rfl
  rw [synced.packets,packetsOf_snoc,if_pos forwarded,extent_toLastOffset,last]
  exact List.mem_append_right _ (List.mem_singleton_self _)

/-- In every run, what is passed on lies in the buffer where the frames end inside of it,
and at the loop's end only there. The frames of a size do so wherever they start just when
they have at most 1516 bytes. -/
theorem packets_inside (memory : Nat → Byte) :
    (∀ past s, Run System.Step (System.start memory) past s →
      ((∀ entry ∈ placed format 0 s.accepted, EndsInside entry) → ∀ p ∈ s.state.packets, p.Inside) ∧
      ∀ entry ∈ past, entry.2 = .leave → ((∀ p ∈ entry.1.state.packets, p.Inside) ↔
        ∀ place ∈ placed format 0 entry.1.accepted, EndsInside place)) ∧
    ∀ n, 0 < n → n < 1600 →
      ((∀ past s, Run System.Step (System.start memory) past s →
        ∀ p ∈ s.state.packets, p.rxSize.toNat = n → p.Inside) ↔ n ≤ 1516) := by
  constructor
  · intro past s run
    constructor
    · intro ends
      obtain ⟨taken,pending,accepted,synced⟩ := synced_run run
      rw [synced.packets,packetsOf_inside]
      intro entry member
      refine ends entry ?_
      rw [accepted,placed_append]
      exact List.mem_append_left _ member
    · intro entry member leave
      obtain ⟨taken,pending,t,synced,moved,-⟩ := entry_synced run member
      rw [synced.leave (leave ▸ moved)]
      exact packetsOf_inside
  · intro n some' small
    constructor
    · intro inside
      have forwarded : (zeros n).Forwarded := by
        rw [Frame.Forwarded,zeros_length]
        exact ⟨some',small⟩
      obtain ⟨past,t,run,-,member⟩ := last_offset memory forwarded
      have size : (BitVec.ofNat 16 n).toNat = n := by
        rw [BitVec.toNat_ofNat]
        exact Nat.mod_eq_of_lt (by omega)
      have ends := inside past t run _ member size
      simp only [Packet.Inside,size,rxBufTotal,rxBufSize,rxBufPad,rxBufWrap] at ends
      omega
    · intro short past s run p member size
      obtain ⟨taken,pending,-,synced⟩ := synced_run run
      rw [synced.packets] at member
      obtain ⟨entry,placed,forwarded,rfl⟩ := mem_packetsOf.mp member
      have length : entry.2.data.length = n := forwarded.length.symm.trans size
      exact (packetAt_inside forwarded).mpr (endsInside_of_short placed (by omega))

/-- A frame of full size that starts at 8188 ends two bytes behind the buffer. -/
theorem full_frame_outside : ∃ past s, Run System.Step (System.start fun _ => 0) past s ∧
    (∀ f ∈ s.accepted, 0 < f.data.length ∧ f.data.length ≤ 1518) ∧
    ∃ p ∈ s.state.packets, 0 < p.rxSize ∧ p.rxSize < 1600 ∧
      p.pktData + p.rxSize.toNat = rxBufTotal + 2 := by
  have forwarded : (zeros 1518).Forwarded := by
    rw [Frame.Forwarded,zeros_length]
    decide
  obtain ⟨past,s,run,accepted,member⟩ := last_offset (fun _ => 0) forwarded
  refine ⟨past,s,run,?_,_,member,by decide,by decide,by decide⟩
  rw [accepted]
  simp [toLastOffset,zeros_length]

end NimrodOS.Rtl8139
