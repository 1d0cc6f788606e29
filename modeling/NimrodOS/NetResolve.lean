import NimrodOS.NetKeeps
import NimrodOS.NetViews

/-! What a packet does to the variables of the resolver. -/
namespace NimrodOS.Net

open Wire Logged

variable {env : Env} {s t : State} {data : Nat → Byte} {len : Half} {ip : Word}

/-- `dns_result_ip`, `dns_got_reply` and `dns_query_id`. -/
structure Resolver where
  resultIp : Word
  gotReply : Byte
  queryId : Half

def State.resolver (s : State) : Resolver := ⟨s.dnsResultIp,s.dnsGotReply,s.dnsQueryId⟩

theorem resolver_stable (q : Resolver → Prop) : Stable fun t => q t.resolver :=
  fun _ _ _ before => before

/-! Replies. -/

/-- Where the DNS message begins. -/
def message (data : Nat → Byte) : Nat := 14 + (ihl data).toNat + 8

/-- The length of the DNS message as `handle_udp` computes it. -/
def messageLen (data : Nat → Byte) : Half := ntohs (udpHeader data).length - 8

def dnsHeader (data : Nat → Byte) : DnsHeader := DnsHeader.read data (message data)

def dnsId (data : Nat → Byte) : Half := ntohs (dnsHeader data).id

/-- The address that the parser finds in the answers. -/
def foundAddress (data : Nat → Byte) : Option Word :=
  let stop := message data + (messageLen data).toNat
  answerLoop data stop (ntohs (dnsHeader data).ancount).toNat
    (skipQuestion data stop (stop - (message data + 12)) (message data + 12))

/-- A response from a DNS server. -/
structure DnsResponse (data : Nat → Byte) (len : Half) : Prop where
  carries : Carries data len protoUdp
  long : 8 ≤ (payloadLen data).toNat
  port : ntohs (udpHeader data).srcPort = dnsPort
  room : 12 ≤ (messageLen data).toNat
  response : ntohs (dnsHeader data).flags &&& 0x8000 ≠ 0

/-- It has answers, and an address is found in them. -/
structure HasAddress (data : Nat → Byte) (len : Half) (ip : Word) : Prop
    extends DnsResponse data len where
  answers : ntohs (dnsHeader data).ancount > 0
  found : foundAddress data = some ip

/-- What `handle_udp` takes for an answer. -/
def Resolves (s : State) (data : Nat → Byte) (len : Half) (ip : Word) : Prop :=
  HasAddress data len ip ∧ dnsId data = s.dnsQueryId

theorem dnsReply_resolver (found : foundAddress data = some ip) (id : dnsId data = s.dnsQueryId)
    (response : ntohs (dnsHeader data).flags &&& 0x8000 ≠ 0)
    (answers : ntohs (dnsHeader data).ancount > 0) :
    dnsReply s data (message data) (messageLen data).toNat =
      {s with dnsResultIp := ip, dnsGotReply := 1} := by
  unfold dnsReply
  dsimp only
  rw [if_pos ⟨id,response,answers⟩]
  unfold foundAddress at found
  dsimp only at found
  rw [← dnsHeader,found]

theorem resolves_handled (env : Env) (resolves : Resolves s data len ip) :
    (netHandlePacket env s data len).result = .ok {s with dnsResultIp := ip, dnsGotReply := 1} := by
  obtain ⟨address,id⟩ := resolves
  rcases packet_cases env s data len with
    ⟨arp,handled⟩ | ⟨icmp,handled⟩ | ⟨-,handled⟩ | ⟨-,-,other,handled⟩
  · exact absurd address.carries (not_carries_of_arp arp)
  · exact absurd address.carries (not_udp_of_icmp icmp)
  · rw [handled,note_bind_result,handleUdp,if_neg (Nat.not_lt.mpr address.long)]
    dsimp only
    rw [← udpHeader,if_pos ⟨address.port,address.room⟩,note_bind_result,← message,
      ← messageLen,dnsReply_resolver address.found id address.response address.answers]
    rfl
  · exact absurd address.carries other

/-- Other messages are left alone. -/
theorem dnsReply_same (other : ¬∃ ip, foundAddress data = some ip ∧ dnsId data = s.dnsQueryId ∧
      ntohs (dnsHeader data).flags &&& 0x8000 ≠ 0 ∧ ntohs (dnsHeader data).ancount > 0) :
    dnsReply s data (message data) (messageLen data).toNat = s := by
  unfold dnsReply
  dsimp only
  split_ifs with taken
  · split
    · rename_i ip found
      exact absurd ⟨ip,found,taken⟩ other
    · rfl
  · rfl

theorem handleUdp_same (carries : Carries data len protoUdp) (other : ∀ ip, ¬Resolves s data len ip) :
    (handleUdp s data (14 + (ihl data).toNat) (payloadLen data)).Returns fun t => t = s := by
  rw [handleUdp]
  split_ifs with short
  · simp
  · dsimp only
    rw [← udpHeader]
    split_ifs with dns
    · apply Returns.after
      intro _
      rw [← message,← messageLen,dnsReply_same]
      · simp
      · rintro ⟨ip,found,id,response,answers⟩
        exact other ip ⟨⟨⟨carries,Nat.not_lt.mp short,dns.1,dns.2,response⟩,answers,found⟩,id⟩
    · simp

/-- No other handler runs while this one waits. -/
def Env.Still (env : Env) (s : State) : Prop := env.Finds fun t => t.resolver = s.resolver

theorem handleArp_resolver {packet : Nat} :
    (handleArp env s data packet).Returns fun t => t.resolver = s.resolver :=
  handleArp_keeps (resolver_stable (· = s.resolver)) (fun _ _ kept => kept) rfl

theorem handleIcmp_resolver (still : env.Still s) {ip : IpHeader} {payload : Nat} {n : Half} :
    (handleIcmp env s data ip payload n).Returns fun t => t.resolver = s.resolver := by
  rw [handleIcmp]
  split_ifs with short
  · simp
  dsimp only
  split_ifs with request answered
  · apply Returns.after
    intro reply
    refine (ipSend_keeps (resolver_stable (· = s.resolver)) rfl still).bind ?_
    intro t kept
    simpa using kept
  · exact (returns_pure _).mpr rfl
  · simp

/-- What a received packet does to the resolver. -/
theorem packet_resolver (still : env.Still s) :
    (netHandlePacket env s data len).Returns fun t =>
      (∀ ip, Resolves s data len ip → t.resolver = ⟨ip,1,s.dnsQueryId⟩) ∧
      ((∀ ip, ¬Resolves s data len ip) → t.resolver = s.resolver) := by
  intro t returned
  constructor
  · intro ip resolves
    rw [resolves_handled env resolves] at returned
    obtain rfl := Except.ok.inj returned
    rfl
  · intro other
    rcases packet_cases env s data len with
      ⟨-,handled⟩ | ⟨-,handled⟩ | ⟨udp,handled⟩ | ⟨-,-,-,handled⟩
    · rw [handled,note_bind_result] at returned
      exact handleArp_resolver t returned
    · rw [handled,note_bind_result] at returned
      exact handleIcmp_resolver still t returned
    · rw [handled,note_bind_result] at returned
      rw [handleUdp_same udp other t returned]
    · rw [handled] at returned
      obtain rfl := Except.ok.inj returned
      rfl

end NimrodOS.Net
