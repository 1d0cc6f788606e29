import NimrodOS.Lib.Run
import NimrodOS.NetResolve

/-! Calls of `net_dns_resolve`, one after the other. The network may deliver the server's
replies at any time, in any order and more than once. Each reply comes with the number of
the call that it answers, which the code does not see. -/
namespace NimrodOS.Net

open Wire Logged Transition

/-- A call: the name that is asked for, and the time at which the call begins. A call whose message is longer
than `query` writes over what stands behind it, and is no call of this model. -/
structure Query where
  hostname : List Byte
  ticks : Word

def Query.id (q : Query) : Half := q.ticks.setWidth 16

/-- The question section of the call's message. -/
def Query.question (q : Query) : List Byte :=
  (if q.hostname.isEmpty then [] else qname [] q.hostname) ++ [0,0,1,0,1]

def State.beginQuery (s : State) (q : Query) : State := {s with dnsQueryId := q.id}

def State.resetReply (s : State) : State := {s with dnsGotReply := 0,dnsResultIp := 0}

def sendQuery (env : Env) (s : State) (q : Query) (attempt : Fin 3) : Logs (State × Int) :=
  let query := dnsQuery q.id q.hostname
  netSendUdp env s netDns (1053 + BitVec.ofNat 16 attempt) dnsPort (fun i => query.getD i 0)
    (BitVec.ofNat 16 query.length)

/-- Where the call stands: no call, the id is set, an attempt is sent or waits for a reply,
or `dns_got_reply` was seen. -/
inductive Resolving where
  | idle
  | begun
  | sending (attempt : Fin 3)
  | waiting (attempt : Fin 3) (start : Word)
  | found

/-- One round of the waiting loop, and where the call goes on. -/
def pollReply (gotReply : Byte) (attempt : Fin 3) (start ticks : Word) (ctrlC : Bool) : Resolving :=
  if ticks - start < 200 then
    if ctrlC then .idle
    else if gotReply ≠ 0 then .found
    else .waiting attempt start
  else if more : attempt.val + 1 < 3 then .sending ⟨attempt.val + 1,more⟩
  else .idle

/-- The reply that `dns_result_ip` was taken from, with the call that it answers. -/
structure Origin where
  address : Word
  answers : Option Nat

/-- The stack with the calls so far. -/
structure Client where
  stack : State
  queries : List Query
  call : Resolving
  origin : Option Origin

def Client.start (nic : Nic) (mac : Mac) : Client := ⟨netInit nic mac,[],.idle,none⟩

/-- The server's reply to a call repeats its id and its question. -/
structure Replies (q : Query) (data : Nat → Byte) (len : Half) : Prop
    extends DnsResponse data len where
  id : dnsId data = q.id
  question : At data (message data + 12) q.question

/-- DNS responses are replies to earlier calls only. -/
def Client.Genuine (s : Client) (data : Nat → Byte) (len : Half) : Option Nat → Prop
  | some k => ∃ q, s.queries[k]? = some q ∧ Replies q data len
  | none => ¬DnsResponse data len

inductive Client.Op where
  | begin (q : Query)
  | reset
  | send (ticks : Word)
  | poll (ticks : Word) (ctrlC : Bool)
  | finish
  | packet (env : Env) (data : Nat → Byte) (len : Half) (answers : Option Nat)
  | rest

/-- Packets may arrive between any two steps of a call, also while it sends. What the
stack does otherwise, the sending included, leaves the resolver as it is. -/
inductive Client.Step : Client → Client.Op → Client → Prop
  | begin {s : Client} (q : Query) (idle : s.call = .idle) : Step s (.begin q)
      {s with stack := s.stack.beginQuery q, queries := s.queries ++ [q], call := .begun}
  | reset {s : Client} (begun : s.call = .begun) :
      Step s .reset {s with stack := s.stack.resetReply, call := .sending 0}
  | send {s : Client} {t : State} {attempt : Fin 3} (ticks : Word)
      (sending : s.call = .sending attempt) (kept : t.resolver = s.stack.resolver) :
      Step s (.send ticks) {s with stack := t, call := .waiting attempt ticks}
  | poll {s : Client} {attempt : Fin 3} {start : Word} (ticks : Word) (ctrlC : Bool)
      (waiting : s.call = .waiting attempt start) : Step s (.poll ticks ctrlC)
      {s with call := pollReply s.stack.dnsGotReply attempt start ticks ctrlC}
  | finish {s : Client} (found : s.call = .found) : Step s .finish {s with call := .idle}
  | packet {s : Client} {t : State} {env : Env} {data : Nat → Byte} {len : Half}
      {answers : Option Nat} {origin : Option Origin} (still : env.Still s.stack)
      (genuine : s.Genuine data len answers)
      (handled : (netHandlePacket env s.stack data len).result = .ok t)
      (taken : ∀ ip, Resolves s.stack data len ip → origin = some ⟨ip,answers⟩)
      (left : (∀ ip, ¬Resolves s.stack data len ip) → origin = s.origin) :
      Step s (.packet env data len answers) {s with stack := t, origin := origin}
  | rest {s : Client} {t : State} (kept : t.resolver = s.stack.resolver) :
      Step s .rest {s with stack := t}

/-- A call is under way and has reset the reply. -/
def Client.Looking (s : Client) : Prop := s.call ≠ .idle ∧ s.call ≠ .begun

/-- The stored address comes from a reply to a call for the name of the last call. -/
def Client.Belongs (s : Client) : Prop := ∃ k q last,
  s.origin = some ⟨s.stack.dnsResultIp,some k⟩ ∧ s.queries[k]? = some q ∧
    s.queries.getLast? = some last ∧ q.hostname = last.hostname

/-- What the call would find, were it to look now, belongs to its name. -/
def Client.Attributed (s : Client) : Prop :=
  s.Looking → s.stack.dnsGotReply ≠ 0 → s.Belongs

/-- While the call is under way, an address arrives for another name whose call began at a
time with the same low 16 bits. -/
def Misleads (s : Client) : Client.Op → Prop
  | .packet _ data len (some k) => s.Looking ∧ (∃ ip, HasAddress data len ip) ∧
      ∃ q last, s.queries[k]? = some q ∧ s.queries.getLast? = some last ∧
        q.ticks.setWidth 16 = (last.ticks.setWidth 16 : Half) ∧ q.hostname ≠ last.hostname
  | _ => False

/-- What is known of the resolver in every run. -/
structure Client.Recorded (s : Client) : Prop where
  asked : s.call ≠ .idle → ∃ last, s.queries.getLast? = some last ∧ s.stack.dnsQueryId = last.id
  found : s.call = .found → s.stack.dnsGotReply ≠ 0

variable {s t : Client} {op : Client.Op} {past : List (Client × Client.Op)} {env : Env}
  {data : Nat → Byte} {len : Half} {q : Query}

theorem start_idle (nic : Nic) (mac : Mac) : (Client.start nic mac).Recorded := by
  constructor
  · exact fun busy => absurd rfl busy
  · intro found
    cases found

theorem pollReply_found {gotReply : Byte} {attempt : Fin 3} {start ticks : Word} {ctrlC : Bool}
    (found : pollReply gotReply attempt start ticks ctrlC = .found) : gotReply ≠ 0 := by
  unfold pollReply at found
  split_ifs at found with early cancelled seen
  exact seen

/-- A packet keeps the id, and a reply that was there stays there. -/
theorem packet_keeps {u v : State} (still : env.Still u)
    (handled : (netHandlePacket env u data len).result = .ok v) :
    v.dnsQueryId = u.dnsQueryId ∧ (u.dnsGotReply ≠ 0 → v.dnsGotReply ≠ 0) := by
  obtain ⟨resolved,same⟩ := packet_resolver still v handled
  by_cases resolves : ∃ ip, Resolves u data len ip
  · obtain ⟨ip,resolves⟩ := resolves
    have after := resolved ip resolves
    have one : v.dnsGotReply = 1 := congrArg Resolver.gotReply after
    refine ⟨congrArg Resolver.queryId after,fun _ => ?_⟩
    rw [one]
    decide
  · have after := same (not_exists.mp resolves)
    have reply : v.dnsGotReply = u.dnsGotReply := congrArg Resolver.gotReply after
    exact ⟨congrArg Resolver.queryId after,fun seen => reply ▸ seen⟩

theorem Client.Recorded.step (recorded : s.Recorded) (moved : Client.Step s op t) : t.Recorded := by
  cases moved with
  | begin q idle =>
    constructor
    · exact fun _ => ⟨q,List.getLast?_concat,rfl⟩
    · intro found
      cases found
  | reset begun =>
    constructor
    · exact fun _ => recorded.asked (by simp [begun])
    · intro found
      cases found
  | @send u attempt ticks sending kept =>
    constructor
    · intro _
      obtain ⟨last,latest,id⟩ := recorded.asked (by simp [sending])
      exact ⟨last,latest,(congrArg Resolver.queryId kept).trans id⟩
    · intro found
      cases found
  | poll ticks ctrlC waiting =>
    constructor
    · exact fun _ => recorded.asked (by simp [waiting])
    · exact pollReply_found
  | finish found =>
    constructor
    · exact fun busy => absurd rfl busy
    · intro found
      cases found
  | @packet u env data len answers origin still genuine handled taken left =>
    obtain ⟨id,reply⟩ := packet_keeps still handled
    constructor
    · intro busy
      obtain ⟨last,latest,same⟩ := recorded.asked busy
      exact ⟨last,latest,id.trans same⟩
    · exact fun found => reply (recorded.found found)
  | @rest u kept =>
    constructor
    · intro busy
      obtain ⟨last,latest,id⟩ := recorded.asked busy
      exact ⟨last,latest,(congrArg Resolver.queryId kept).trans id⟩
    · intro found
      have reply : u.dnsGotReply = s.stack.dnsGotReply := congrArg Resolver.gotReply kept
      exact reply ▸ recorded.found found

/-- Where the resolver is kept, what it has found still belongs to the name. -/
theorem Client.Attributed.kept {u : State} {call : Resolving} (attributed : s.Attributed)
    (same : u.resolver = s.stack.resolver) (looking : s.Looking) :
    Client.Attributed {s with stack := u, call := call} := by
  intro _ reply
  have address : u.dnsResultIp = s.stack.dnsResultIp := congrArg Resolver.resultIp same
  have got : u.dnsGotReply = s.stack.dnsGotReply := congrArg Resolver.gotReply same
  obtain ⟨k,q,last,origin,rest⟩ := attributed looking (got ▸ reply)
  refine ⟨k,q,last,?_,rest⟩
  rw [address]
  exact origin

/-- A reply is taken just when it carries an address and its call has the last call's id. -/
theorem Client.Recorded.resolves_iff (recorded : s.Recorded) {last : Query} {ip : Word}
    (busy : s.call ≠ .idle) (latest : s.queries.getLast? = some last) (replies : Replies q data len) :
    Resolves s.stack data len ip ↔ HasAddress data len ip ∧ q.id = last.id := by
  obtain ⟨last',latest',id⟩ := recorded.asked busy
  obtain rfl : last = last' := Option.some.inj (latest.symm.trans latest')
  rw [Resolves,replies.id,id]

/-- A packet that arrives while the call is under way, and is taken for its answer. -/
theorem Client.Recorded.resolved_iff (recorded : s.Recorded) (looking : s.Looking) {u : State}
    {answers : Option Nat} {ip : Word} (genuine : s.Genuine data len answers)
    (resolves : Resolves s.stack data len ip) (after : u.resolver = ⟨ip,1,s.stack.dnsQueryId⟩) :
    Client.Attributed {s with stack := u, origin := some ⟨ip,answers⟩} ↔
      ¬Misleads s (.packet env data len answers) := by
  have address : u.dnsResultIp = ip := congrArg Resolver.resultIp after
  have one : u.dnsGotReply ≠ 0 := by
    have got : u.dnsGotReply = 1 := congrArg Resolver.gotReply after
    rw [got]
    decide
  cases answers with
  | none => exact absurd resolves.1.toDnsResponse genuine
  | some k =>
    obtain ⟨q,asked,replies⟩ := genuine
    obtain ⟨last,latest,id⟩ := recorded.asked looking.1
    have same := ((recorded.resolves_iff looking.1 latest replies).mp resolves).2
    constructor
    · rintro attributed ⟨-,-,q',last',asked',latest',-,other⟩
      obtain ⟨k',r,final,origin,known,ends,name⟩ := attributed looking one
      simp only [Option.some.injEq,Origin.mk.injEq] at origin
      obtain ⟨-,rfl⟩ := origin
      rw [Option.some.inj (known.symm.trans asked'),Option.some.inj (ends.symm.trans latest')] at name
      exact other name
    · intro calm _ _
      refine ⟨k,q,last,by rw [address],asked,latest,?_⟩
      by_contra other
      exact calm ⟨looking,⟨ip,resolves.1⟩,q,last,asked,latest,same,other⟩

/-- One step from a state in which the reply, if any, belongs to the call. -/
theorem Client.Recorded.attributed_iff (recorded : s.Recorded) (attributed : s.Attributed)
    (moved : Client.Step s op t) : t.Attributed ↔ ¬Misleads s op := by
  cases moved with
  | begin q idle => exact iff_of_true (fun looking => absurd rfl looking.2) id
  | reset begun => exact iff_of_true (fun _ reply => absurd rfl reply) id
  | @send u attempt ticks sending kept =>
    exact iff_of_true (attributed.kept kept (by simp [Client.Looking,sending])) id
  | poll ticks ctrlC waiting =>
    exact iff_of_true (attributed.kept rfl (by simp [Client.Looking,waiting])) id
  | finish found => exact iff_of_true (fun looking => absurd rfl looking.1) id
  | @packet u env data len answers origin still genuine handled taken left =>
    by_cases looking : s.Looking
    · by_cases resolves : ∃ ip, Resolves s.stack data len ip
      · obtain ⟨ip,resolves⟩ := resolves
        obtain rfl := taken ip resolves
        have after := (packet_resolver still u handled).1 ip resolves
        exact recorded.resolved_iff looking genuine resolves after
      · have none := not_exists.mp resolves
        obtain rfl := left none
        refine iff_of_true (attributed.kept ((packet_resolver still u handled).2 none) looking) ?_
        intro misleads
        cases answers with
        | none => exact misleads
        | some k =>
          obtain ⟨-,⟨ip,address⟩,q,last,asked,latest,same,-⟩ := misleads
          obtain ⟨q',asked',replies⟩ := genuine
          obtain rfl : q = q' := Option.some.inj (asked.symm.trans asked')
          exact none ip ((recorded.resolves_iff looking.1 latest replies).mpr ⟨address,same⟩)
    · refine iff_of_true (fun looks => absurd looks looking) fun misleads => ?_
      cases answers with
      | none => exact misleads
      | some k => exact looking misleads.1
  | @rest u kept =>
    refine iff_of_true (fun looking => ?_) id
    have after : Client.Attributed {s with stack := u} := attributed.kept kept looking
    exact after looking

/-- A whole sending of the query is a run when each of its waits ends in one. -/
theorem sendQuery_run {attempt : Fin 3} {u : State × Int}
    (finds : env.Finds fun u => ∃ past t, Run Client.Step s past t ∧
      t.call = .sending attempt ∧ t.stack.resolver = u.resolver)
    (sending : s.call = .sending attempt)
    (returned : (sendQuery env s.stack q attempt).result = .ok u) :
    ∃ past t, Run Client.Step s past t ∧ t.stack = u.1 ∧ t.call = .waiting attempt env.ticks := by
  have stable := resolver_stable fun r => ∃ past t, Run Client.Step s past t ∧
    t.call = .sending attempt ∧ t.stack.resolver = r
  have keeps : (sendQuery env s.stack q attempt).Returns fun u => ∃ past t,
      Run Client.Step s past t ∧ t.call = .sending attempt ∧ t.stack.resolver = u.1.resolver := by
    apply Returns.after
    intro _
    apply Returns.after
    intro _
    exact ipSend_keeps stable ⟨[],s,.nil,sending,rfl⟩ finds
  obtain ⟨past,t,run,still,same⟩ := keeps u returned
  exact ⟨_,_,run.snoc (.send env.ticks still same.symm),rfl,rfl⟩

/-- What a call can find belongs to its name in all states of a run just when no address
for another name with the same id arrives while the call is under way. Then every call that
returns an address returns one that belongs to its name. -/
theorem results_belong {nic : Nic} {mac : Mac} (run : Run Client.Step (Client.start nic mac) past s) :
    ((∀ t ∈ past.map Prod.fst ++ [s], t.Attributed) ↔ ∀ entry ∈ past, ¬Misleads entry.1 entry.2) ∧
    ((∀ entry ∈ past, ¬Misleads entry.1 entry.2) →
      ∀ entry ∈ past, entry.2 = .finish → entry.1.Belongs) := by
  have first : (Client.start nic mac).Attributed := fun looking => absurd rfl looking.1
  have states : (∀ t ∈ past.map Prod.fst ++ [s], t.Attributed) ↔
      ∀ entry ∈ past, ¬Misleads entry.1 entry.2 :=
    run.exact_states (start_idle nic mac) first
      (fun _ _ _ recorded moved => recorded.step moved)
      fun _ _ _ recorded attributed moved => recorded.attributed_iff attributed moved
  refine ⟨states,fun calm entry member finish => ?_⟩
  have attributed := states.mpr calm entry.1 (List.mem_append_left _ (List.mem_map_of_mem member))
  obtain ⟨before,after,rfl⟩ := List.append_of_mem member
  obtain ⟨prior,t,moved,-⟩ := run.split
  rw [finish] at moved
  cases moved with
  | finish found =>
    have recorded : entry.1.Recorded := prior.invariant (start_idle nic mac)
      fun _ _ _ recorded moved => recorded.step moved
    exact attributed (by simp [Client.Looking,found]) (recorded.found found)

/-- The server's reply to a question for a name of one letter with id 0. -/
def letterReply (letter address : Byte) : Nat → Byte := fun i =>
  ([0,0,0,0,0,0,0,0,0,0,0,0,0x08,0x00,0x45,0,0,63,0,0,0,0,64,17,0,0,10,0,2,3,10,0,2,15,
    0,53,0x04,0x1D,0,43,0,0,0,0,0x81,0x80,0,1,0,1,0,0,0,0,1,letter,0,0,1,0,1,
    0xC0,0x0C,0,1,0,1,0,0,0,60,0,4,10,0,0,address] : List Byte).getD i 0

def queryA : Query := ⟨[0x61],0⟩

/-- Asked 65536 ticks later. -/
def queryB : Query := ⟨[0x62],0x10000⟩

theorem replyA : Replies queryA (letterReply 0x61 7) 77 where
  carries := ⟨by decide,by decide,by decide,by decide⟩
  long := by decide
  port := by decide
  room := by decide
  response := by decide
  id := by decide
  question := ⟨rfl,rfl,rfl,rfl,rfl,rfl,rfl,trivial⟩

theorem replyA_address : HasAddress (letterReply 0x61 7) 77 0x0A000007 where
  toDnsResponse := replyA.toDnsResponse
  answers := by decide
  found := by decide

/-- A call that has sent its first query. -/
def Client.ask (s : Client) (q : Query) : Client :=
  ⟨(s.stack.beginQuery q).resetReply,s.queries ++ [q],.waiting 0 q.ticks,s.origin⟩

theorem ask_run (s : Client) (q : Query) (idle : s.call = .idle) : ∃ past,
    Run Client.Step s past (s.ask q) ∧ ∀ entry ∈ past, ¬Misleads entry.1 entry.2 := by
  let begun : Client := ⟨s.stack.beginQuery q,s.queries ++ [q],.begun,s.origin⟩
  let sending : Client := ⟨(s.stack.beginQuery q).resetReply,s.queries ++ [q],.sending 0,s.origin⟩
  have sent : Client.Step sending (.send q.ticks) (s.ask q) := .send q.ticks rfl rfl
  have reset : Client.Step begun .reset sending := .reset rfl
  refine ⟨_,Run.cons (.begin q idle) (Run.cons reset (Run.single sent)),?_⟩
  simp [Misleads]

/-- What the first call's reply does to a call with the same id. -/
def Client.answer (s : Client) : Client :=
  ⟨{s.stack with dnsResultIp := 0x0A000007, dnsGotReply := 1},s.queries,s.call,some ⟨0x0A000007,some 0⟩⟩

theorem answer_step (asked : s.queries[0]? = some queryA) (same : s.stack.dnsQueryId = 0) :
    Client.Step s (.packet default (letterReply 0x61 7) 77 (some 0)) s.answer := by
  have id : dnsId (letterReply 0x61 7) = s.stack.dnsQueryId := replyA.id.trans same.symm
  have resolves : Resolves s.stack (letterReply 0x61 7) 77 0x0A000007 := ⟨replyA_address,id⟩
  refine .packet (default_finds _) ⟨queryA,asked,replyA⟩ (resolves_handled default resolves) ?_ ?_
  · intro ip other
    have address : some 0x0A000007 = some ip := replyA_address.found.symm.trans other.1.found
    rw [← Option.some.inj address]
  · intro none
    exact absurd resolves (none _)

theorem poll_step {attempt : Fin 3} {start ticks : Word} {ctrlC : Bool} {call : Resolving}
    (waiting : s.call = .waiting attempt start)
    (next : pollReply s.stack.dnsGotReply attempt start ticks ctrlC = call) :
    Client.Step s (.poll ticks ctrlC) {s with call := call} := by
  rw [← next]
  exact .poll ticks ctrlC waiting

def askedA : Client := (Client.start .e1000 broadcast).ask queryA

/-- One call and its reply. -/
theorem results_belong_once : ∃ past s, Run Client.Step (Client.start .e1000 broadcast) past s ∧
    ∃ entry ∈ past, entry.2 = .finish ∧ entry.1.Belongs := by
  obtain ⟨past,asks,calm⟩ := ask_run (Client.start .e1000 broadcast) queryA rfl
  let found : Client := {askedA.answer with call := .found}
  have poll : Client.Step askedA.answer (.poll 1 false) found := poll_step rfl rfl
  have answers := Run.cons (answer_step (s := askedA) rfl rfl) (Run.cons poll (Run.single (.finish rfl)))
  have run := asks.trans answers
  have calm' : ∀ entry ∈ past ++ [(askedA,.packet default (letterReply 0x61 7) 77 (some 0)),
      (askedA.answer,.poll 1 false),(found,.finish)], ¬Misleads entry.1 entry.2 := by
    rw [List.forall_mem_append]
    refine ⟨calm,?_⟩
    simp only [List.forall_mem_cons,List.not_mem_nil,false_implies,implies_true,and_true]
    refine ⟨?_,id,id⟩
    rintro ⟨-,-,q,last,asked,latest,-,other⟩
    obtain rfl : queryA = q := Option.some.inj asked
    obtain rfl : queryA = last := Option.some.inj latest
    exact other rfl
  refine ⟨_,_,run,(found,.finish),by simp,rfl,?_⟩
  exact (results_belong run).2 calm' _ (by simp) rfl

/-- The call for `a` is given up, and its reply, which comes while `b` is asked for, is
returned as the address of `b`. -/
theorem late_address_returned : ∃ past s, Run Client.Step (Client.start .e1000 broadcast) past s ∧
    ∃ entry ∈ past, entry.2 = .finish ∧ ¬entry.1.Belongs := by
  obtain ⟨past,asksA,-⟩ := ask_run (Client.start .e1000 broadcast) queryA rfl
  let given : Client := {askedA with call := .idle}
  have gives : Client.Step askedA (.poll 5 true) given := poll_step rfl rfl
  obtain ⟨past',asksB,-⟩ := ask_run given queryB rfl
  let askedB := given.ask queryB
  let found : Client := {askedB.answer with call := .found}
  have poll : Client.Step askedB.answer (.poll 0x10001 false) found := poll_step rfl rfl
  have answers := Run.cons (answer_step (s := askedB) rfl rfl) (Run.cons poll (Run.single (.finish rfl)))
  have run := asksA.trans (Run.cons gives (asksB.trans answers))
  refine ⟨_,_,run,(found,.finish),by simp,rfl,?_⟩
  rintro ⟨k,q,last,origin,asked,latest,name⟩
  obtain rfl : 0 = k := by
    have answers : some (⟨0x0A000007,some 0⟩ : Origin) = some ⟨_,some k⟩ := origin
    simp only [Option.some.injEq,Origin.mk.injEq] at answers
    exact answers.2
  obtain rfl : queryA = q := Option.some.inj asked
  obtain rfl : queryB = last := Option.some.inj latest
  cases name

end NimrodOS.Net
