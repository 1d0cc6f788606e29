import NimrodOS.NetPing

/-! Runs of pings, and whether `got_reply` speaks of the request that was sent last. -/
namespace NimrodOS.Net

open Wire Logged Transition

variable {env : Env} {data : Nat → Byte} {len : Half}

/-- One of the four requests of `cmd_ping`. -/
structure Ping where
  targetIp : Word
  round : Fin 4

def pingId : Half := 0x1234

def Ping.seq (r : Ping) : Half := BitVec.ofNat 16 (r.round + 1)

def cmdPingRequest (env : Env) (s : State) (r : Ping) : Logs (State × Int) :=
  netSendIcmpEcho env s r.targetIp pingId r.seq

theorem round_of_seq {r r' : Ping} (same : r.seq = r'.seq) : r.round = r'.round := by
  have apart : ∀ i j : Fin 4, BitVec.ofNat 16 (i + 1) = BitVec.ofNat 16 (j + 1) → i = j := by
    decide
  exact apart r.round r'.round same

/-- A packet's sender and the number of the request that it answers. -/
structure Arrival where
  sender : Word
  answers : Option Nat

/-- The stack with the requests sent so far and the packet on which `got_reply` has
become 1 since the last of them. -/
structure System where
  stack : State
  sent : List Ping
  first : Option Arrival

def System.start (nic : Nic) (mac : Mac) : System := ⟨netInit nic mac,[],none⟩

def System.ask (s : System) (r : Ping) (ticks : Word) : System :=
  ⟨s.stack.startPing r.targetIp pingId r.seq ticks,s.sent ++ [r],none⟩

inductive System.Op where
  | ask (r : Ping) (ticks : Word)
  | packet (env : Env) (data : Nat → Byte) (len : Half) (answers : Option Nat)
  | rest

/-- A host answers under the address that the request was sent to. -/
structure Answers (r : Ping) (data : Nat → Byte) (len : Half) : Prop
    extends EchoReply data len where
  sender : source data = r.targetIp
  id : ntohs (icmpHeader data).id = pingId
  seq : ntohs (icmpHeader data).sequence = r.seq

/-- A request is taken apart where `ip_send` begins, so packets may arrive while it waits.
What the stack does otherwise, the sending included, leaves `ping_state` as it is. -/
inductive System.Step : System → System.Op → System → Prop
  | ask {s : System} (r : Ping) (ticks : Word) : Step s (.ask r ticks) (s.ask r ticks)
  | packet {s : System} {t : State} {env : Env} {data : Nat → Byte} {len : Half}
      {answers : Option Nat} (quiet : env.Quiet s.stack)
      (tagged : ∀ k ∈ answers, ∃ r, s.sent[k]? = some r ∧ Answers r data len)
      (handled : (netHandlePacket env s.stack data len).result = .ok t) :
      Step s (.packet env data len answers) ⟨t,s.sent,
        if s.stack.pingState.gotReply = 0 ∧ t.pingState.gotReply = 1 then
          some ⟨source data,answers⟩ else s.first⟩
  | rest {s : System} {t : State} (kept : t.pingState = s.stack.pingState) :
      Step s .rest ⟨t,s.sent,s.first⟩

/-- The reply came from the target and answers the last request. -/
def System.Attributed (s : System) : Prop :=
  s.stack.pingState.gotReply = 1 →
    ∃ k, s.first = some ⟨s.stack.pingState.targetIp,some k⟩ ∧ k + 1 = s.sent.length

/-- The last request repeats the number of an earlier one. -/
def System.Superseded (s : System) (k : Nat) : Prop :=
  k + 1 < s.sent.length ∧ s.sent[k]?.map Ping.round = s.sent.getLast?.map Ping.round

/-- The reply to an earlier request of the last one's number, or a reply to nothing that
was asked, with the id and number asked for. -/
def System.Mistakes (s : System) (data : Nat → Byte) (len : Half) : Option Nat → Prop
  | some k => s.Superseded k
  | none => Confirms s.stack data len

/-- Such a packet comes before the last request is answered. -/
def Disturbs (s : System) : System.Op → Prop
  | .packet _ data len answers => s.stack.pingState.gotReply = 0 ∧ s.Mistakes data len answers
  | .ask _ _ => False
  | .rest => False

/-- What is known of `ping_state` in every run. -/
structure System.Recorded (s : System) : Prop where
  flag : s.stack.pingState.gotReply = 0 ∨ s.stack.pingState.gotReply = 1
  latest : ∀ r, s.sent.getLast? = some r → s.stack.pingState.targetIp = r.targetIp ∧
    s.stack.pingState.id = pingId ∧ s.stack.pingState.seq = r.seq

variable {s t : System} {op : System.Op}

theorem start_recorded (nic : Nic) (mac : Mac) : (System.start nic mac).Recorded := by
  constructor
  · exact .inl rfl
  · intro r last
    cases last

theorem System.Recorded.step (recorded : s.Recorded) (moved : System.Step s op t) :
    t.Recorded := by
  cases moved with
  | ask r ticks =>
    constructor
    · exact .inl rfl
    · intro last is
      obtain rfl : r = last := by simpa [System.ask] using is
      exact ⟨rfl,rfl,rfl⟩
  | @packet t env data len answers quiet tagged handled =>
    by_cases confirms : Confirms s.stack data len
    · have after := (packet_ping quiet t handled).1 confirms
      constructor
      · rw [after]
        exact .inr rfl
      · intro r last
        rw [after]
        exact recorded.latest r last
    · have after := (packet_ping quiet t handled).2 confirms
      constructor
      · rw [after]
        exact recorded.flag
      · intro r last
        rw [after]
        exact recorded.latest r last
  | rest kept =>
    constructor
    · rw [kept]
      exact recorded.flag
    · intro r last
      rw [kept]
      exact recorded.latest r last

/-- A reply is taken for an answer just when its request has the last one's number. -/
theorem System.Recorded.confirms_iff (recorded : s.Recorded) {r last : Ping}
    (latest : s.sent.getLast? = some last) (answers : Answers r data len) :
    Confirms s.stack data len ↔ r.round = last.round := by
  obtain ⟨-,id,seq⟩ := recorded.latest last latest
  constructor
  · intro confirms
    apply round_of_seq
    rw [← answers.seq,confirms.seq,seq]
  · intro same
    have number : r.seq = last.seq := by rw [Ping.seq,Ping.seq,same]
    exact ⟨answers.toEchoReply,answers.id.trans id.symm,
      answers.seq.trans (number.trans seq.symm)⟩

/-- The last request's number is the one its own reply carries. -/
theorem superseded_iff {k : Nat} {r last : Ping} (asked : s.sent[k]? = some r)
    (latest : s.sent.getLast? = some last) (same : r.round = last.round) :
    s.Superseded k ↔ k + 1 ≠ s.sent.length := by
  have inside := (List.getElem?_eq_some_iff.mp asked).1
  rw [System.Superseded,asked,latest]
  simp only [Option.map_some,same,and_true]
  omega

/-- A packet that is taken for an answer while none has come. -/
theorem System.Recorded.attributed_confirms (recorded : s.Recorded) {answers : Option Nat} {u : State}
    (tagged : ∀ k ∈ answers, ∃ r, s.sent[k]? = some r ∧ Answers r data len)
    (confirms : Confirms s.stack data len) (after : u.pingState = s.stack.confirmed env.ticks) :
    System.Attributed ⟨u,s.sent,some ⟨source data,answers⟩⟩ ↔ ¬s.Mistakes data len answers := by
  have one : u.pingState.gotReply = 1 := by rw [after]; rfl
  have target : u.pingState.targetIp = s.stack.pingState.targetIp := by rw [after]; rfl
  simp only [System.Attributed,one,target,forall_const,Option.some.injEq,Arrival.mk.injEq]
  cases answers with
  | none => simp [System.Mistakes,confirms]
  | some k =>
    obtain ⟨r,asked,answers⟩ := tagged k rfl
    obtain ⟨last,latest⟩ : ∃ last, s.sent.getLast? = some last := by
      rw [← Option.isSome_iff_exists,List.getLast?_isSome]
      rintro empty
      simp [empty] at asked
    have same := (recorded.confirms_iff latest answers).mp confirms
    rw [System.Mistakes,superseded_iff asked latest same,not_ne_iff]
    constructor
    · rintro ⟨k',⟨-,number⟩,ends⟩
      rwa [Option.some.inj number]
    · intro ends
      have own : r = last := by
        rw [List.getLast?_eq_getElem?,← ends,Nat.add_sub_cancel,asked] at latest
        exact Option.some.inj latest
      refine ⟨k,⟨?_,rfl⟩,ends⟩
      rw [answers.sender,own,(recorded.latest last latest).1]

/-- One step from a state in which the reply, if any, is attributed. -/
theorem System.Recorded.attributed_iff (recorded : s.Recorded) (attributed : s.Attributed)
    (moved : System.Step s op t) : t.Attributed ↔ ¬Disturbs s op := by
  cases moved with
  | ask r ticks => exact iff_of_true (fun (one : (0 : Byte) = 1) => absurd one (by decide)) id
  | rest kept =>
    refine iff_of_true ?_ id
    rw [System.Attributed,kept]
    exact attributed
  | @packet u env data len answers quiet tagged handled =>
    by_cases confirms : Confirms s.stack data len
    · have after := (packet_ping quiet u handled).1 confirms
      have one : u.pingState.gotReply = 1 := by rw [after]; rfl
      rcases recorded.flag with waiting | answered
      · rw [if_pos ⟨waiting,one⟩,recorded.attributed_confirms tagged confirms after]
        simp only [Disturbs,waiting,true_and]
      · have later : ¬(s.stack.pingState.gotReply = 0 ∧ u.pingState.gotReply = 1) := by
          simp [answered]
        rw [if_neg later]
        refine iff_of_true ?_ fun disturbs => later ⟨disturbs.1,one⟩
        intro _
        rw [after]
        exact attributed answered
    · have after := (packet_ping quiet u handled).2 confirms
      have same : ¬(s.stack.pingState.gotReply = 0 ∧ u.pingState.gotReply = 1) := by
        rintro ⟨zero,one⟩
        rw [after,zero] at one
        exact absurd one (by decide)
      rw [if_neg same]
      refine iff_of_true ?_ ?_
      · rw [System.Attributed,after]
        exact attributed
      · rintro ⟨-,disturbs⟩
        cases answers with
        | none => exact confirms disturbs
        | some k =>
          obtain ⟨r,asked,answers⟩ := tagged k rfl
          obtain ⟨last,latest,same⟩ : ∃ last, s.sent.getLast? = some last ∧ r.round = last.round := by
            have rounds := disturbs.2
            rw [asked] at rounds
            obtain ⟨last,latest,same⟩ := Option.map_eq_some_iff.mp rounds.symm
            exact ⟨last,latest,same.symm⟩
          exact confirms ((recorded.confirms_iff latest answers).mpr same)

/-- A whole call is a run when each of its waits ends in one: the request, what arrives
meanwhile, and the rest of the sending. -/
theorem cmdPingRequest_run {r : Ping} {u : State × Int}
    (finds : env.Finds fun u => ∃ past t, Run System.Step (s.ask r env.ticks) past t ∧
      t.stack.pingState = u.pingState)
    (returned : (cmdPingRequest env s.stack r).result = .ok u) :
    ∃ past t, Run System.Step s ((s,.ask r env.ticks) :: past) t ∧ t.stack = u.1 := by
  have stable := ping_stable fun ping => ∃ past t,
    Run System.Step (s.ask r env.ticks) past t ∧ t.stack.pingState = ping
  obtain ⟨past,t,run,same⟩ := ipSend_keeps stable ⟨[],_,.nil,rfl⟩ finds u returned
  exact ⟨_,_,Run.cons (.ask r env.ticks) (run.snoc (.rest same.symm)),rfl⟩

theorem replies_attributed_iff (nic : Nic) (mac : Mac) {past : List (System × System.Op)}
    (run : Run System.Step (System.start nic mac) past s) :
    (∀ t ∈ past.map Prod.fst ++ [s], t.Attributed) ↔
      ∀ entry ∈ past, ¬Disturbs entry.1 entry.2 := by
  have first : (System.start nic mac).Attributed :=
    fun (one : (0 : Byte) = 1) => absurd one (by decide)
  exact run.exact_states (start_recorded nic mac) first
    (fun _ _ _ recorded moved => recorded.step moved)
    (fun _ _ _ recorded attributed moved => recorded.attributed_iff attributed moved)

/-- The reply of a host in the local network, as it arrives at `0x0A00020F`. -/
def replyFrame (host : Byte) (seq : Byte) : Nat → Byte := fun i =>
  ([0,0,0,0,0,0,0,0,0,0,0,0,0x08,0x00,0x45,0,0,28,0,0,0,0,64,1,0,0,10,0,2,host,10,0,2,15,
    0,0,0,0,0x12,0x34,0,seq] : List Byte).getD i 0

def pingDns : Ping := ⟨0x0A000203,0⟩

def pingGateway : Ping := ⟨0x0A000202,0⟩

theorem dns_answers : Answers pingDns (replyFrame 3 1) 42 where
  carries := ⟨by decide,by decide,by decide,by decide⟩
  long := by decide
  type := by decide
  sender := by decide
  id := by decide
  seq := by decide

/-- The reply arrives behind any run that has asked the DNS server first, and is taken for
an answer when the last request has its number. -/
theorem dns_packet (asked : s.sent[0]? = some pingDns)
    (confirms : Confirms s.stack (replyFrame 3 1) 42) (waiting : s.stack.pingState.gotReply = 0) :
    System.Step s (.packet default (replyFrame 3 1) 42 (some 0))
      ⟨{s.stack with pingState := s.stack.confirmed 0},s.sent,some ⟨0x0A000203,some 0⟩⟩ := by
  have handled := confirms_handled default confirms
  have tagged : ∀ k ∈ some 0, ∃ r, s.sent[k]? = some r ∧ Answers r (replyFrame 3 1) 42 := by
    rintro k ⟨⟩
    exact ⟨pingDns,asked,dns_answers⟩
  have taken := System.Step.packet (default_finds _) tagged handled
  rwa [if_pos ⟨waiting,rfl⟩,dns_answers.sender] at taken

def askedDns : System := (System.start .e1000 broadcast).ask pingDns 0

def askedGateway : System := askedDns.ask pingGateway 0

theorem askedDns_confirms : Confirms askedDns.stack (replyFrame 3 1) 42 :=
  ⟨dns_answers.toEchoReply,by decide,by decide⟩

theorem askedGateway_confirms : Confirms askedGateway.stack (replyFrame 3 1) 42 :=
  ⟨dns_answers.toEchoReply,by decide,by decide⟩

/-- One request and its reply. -/
theorem replies_attributed_once : ∃ s,
    (∀ t ∈ [System.start .e1000 broadcast,askedDns] ++ [s], t.Attributed) ∧
      s.stack.pingState.gotReply = 1 := by
  have run := Run.cons (.ask pingDns 0) (Run.single (dns_packet rfl askedDns_confirms rfl))
  refine ⟨_,(replies_attributed_iff .e1000 broadcast run).mpr ?_,rfl⟩
  rintro entry member
  simp only [List.mem_cons,List.not_mem_nil,or_false] at member
  rcases member with rfl | rfl
  · exact id
  · exact fun disturbs => absurd disturbs.2.1 (by decide)

/-- The DNS server's late reply is taken for the gateway's. -/
theorem late_reply_misattributed : ∃ past s,
    Run System.Step (System.start .e1000 broadcast) past s ∧
      ¬∀ t ∈ past.map Prod.fst ++ [s], t.Attributed := by
  have run := Run.cons (.ask pingDns 0) (Run.cons (.ask pingGateway 0)
    (Run.single (dns_packet rfl askedGateway_confirms rfl)))
  refine ⟨_,_,run,?_⟩
  intro attributed
  obtain ⟨k,same,-⟩ := attributed _ (List.mem_append_right _ (List.mem_singleton_self _)) rfl
  simp only [Option.some.injEq,Arrival.mk.injEq] at same
  exact absurd same.1 (by decide)

end NimrodOS.Net
