import NimrodOS.NetSteps

/-! Which parts of a received packet are handed down, and when they lie inside of it. -/
namespace NimrodOS.Net

open Wire Logged

variable {env : Env} {s : State} {data : Nat → Byte} {len : Half}

/-- The part lies inside of the packet, and its length did not wrap around. -/
def View.Inside (v : View) (len : Half) : Prop :=
  v.exact = v.length.toNat ∧ v.offset + v.length.toNat ≤ len.toNat

def Event.ViewInside (len : Half) : Event → Prop
  | .view v => v.Inside len
  | _ => True

def udpHeader (data : Nat → Byte) : UdpHeader := UdpHeader.read data (14 + (ihl data).toNat)

/-- The length fields fit into each other as far as the packet is looked at. -/
structure FieldsAgree (data : Nat → Byte) (len : Half) : Prop where
  arp : IsArp data len → 42 ≤ len.toNat
  header : Carries data len protoIcmp ∨ Carries data len protoUdp →
    (ihl data).toNat ≤ (totalLen data).toNat
  datagram : Carries data len protoUdp → (ihl data).toNat + 8 ≤ (totalLen data).toNat →
    ntohs (udpHeader data).srcPort = dnsPort → 8 ≤ (ntohs (udpHeader data).length).toNat ∧
      (20 ≤ (ntohs (udpHeader data).length).toNat →
        14 + (ihl data).toNat + (ntohs (udpHeader data).length).toNat ≤ len.toNat)

theorem Event.Framing.viewInside {e : Event} (framing : e.Framing) : e.ViewInside len := by
  cases e with
  | view v => exact framing.elim
  | write b offset size => trivial
  | sent frame => trivial

theorem handleIcmp_views {ip : IpHeader} {payload : Nat} {n : Half} :
    (handleIcmp env s data ip payload n).All (Event.ViewInside len) := by
  rw [handleIcmp]
  split_ifs
  · simp
  · dsimp only
    split_ifs
    · apply All.bind
      · exact echoReply_all trivial (fun _ => trivial) trivial
      · intro _ _
        apply All.bind
        · exact ipSend_all trivial trivial fun _ => Event.Framing.viewInside
        · simp
    · simp
    · simp

/-- The message of a datagram that is looked at as a DNS reply. -/
theorem handleUdp_views {payload : Nat} {n : Half} :
    (handleUdp s data payload n).All (Event.ViewInside len) ↔
      (8 ≤ n.toNat → ntohs (UdpHeader.read data payload).srcPort = dnsPort →
        8 ≤ (ntohs (UdpHeader.read data payload).length).toNat ∧
          (20 ≤ (ntohs (UdpHeader.read data payload).length).toNat →
            payload + (ntohs (UdpHeader.read data payload).length).toNat ≤ len.toNat)) := by
  rw [handleUdp]
  generalize UdpHeader.read data payload = udp
  have bound := (ntohs udp.length).isLt
  have wrapped : (ntohs udp.length - 8).toNat = ((ntohs udp.length).toNat + (2^16 - 8)) % 2^16 := by
    rw [BitVec.toNat_sub]
    congr 1
    have eight : (8 : Half).toNat = 8 := rfl
    omega
  split_ifs with short
  · simp only [all_pure,true_iff]
    omega
  · dsimp only
    split_ifs with dns
    · simp only [all_note_bind,all_pure,and_true,Event.ViewInside,View.Inside,wrapped]
      simp only [ge_iff_le,wrapped] at dns
      have long : 8 ≤ n.toNat := by omega
      simp only [long,dns.1,forall_const]
      omega
    · simp only [all_pure,true_iff]
      intro long port
      simp only [port,true_and,wrapped,ge_iff_le] at dns
      omega

theorem ipView_inside {protocol : Byte} (carries : Carries data len protocol) (handler : Handler) :
    (ipView data handler).Inside len ↔ (ihl data).toNat ≤ (totalLen data).toNat := by
  have small := ihl_small data
  have bound := (totalLen data).isLt
  have room := carries.total
  simp only [ipView,View.Inside,payloadLen_toNat]
  omega

theorem arp_views (arp : IsArp data len) :
    (netHandlePacket env s data len).All (Event.ViewInside len) ↔ 42 ≤ len.toNat := by
  rw [packet_of_arp arp,all_note_bind,
    and_iff_left (handleArp_framing.mono fun _ => Event.Framing.viewInside)]
  exact and_iff_right rfl

/-- Every part handed down lies inside of the packet just when the length fields fit
into each other. -/
theorem views_inside_iff (env : Env) (s : State) (data : Nat → Byte) (len : Half) :
    (netHandlePacket env s data len).All (Event.ViewInside len) ↔ FieldsAgree data len := by
  rcases packet_cases env s data len with
    ⟨arp,-⟩ | ⟨icmp,handled⟩ | ⟨udp,handled⟩ | ⟨arp,icmp,udp,handled⟩
  · rw [arp_views arp]
    constructor
    · intro inside
      exact ⟨fun _ => inside,fun carries => (carries.elim (not_carries_of_arp arp)
        (not_carries_of_arp arp)).elim,fun carries => absurd carries (not_carries_of_arp arp)⟩
    · intro agree
      exact agree.arp arp
  · rw [handled,all_note_bind,and_iff_left handleIcmp_views]
    constructor
    · intro inside
      exact ⟨fun arp => absurd icmp (not_carries_of_arp arp),
        fun _ => (ipView_inside icmp .icmp).mp inside,
        fun udp => absurd udp (not_udp_of_icmp icmp)⟩
    · intro agree
      exact (ipView_inside icmp .icmp).mpr (agree.header (.inl icmp))
  · have small := ihl_small data
    have enough : (ihl data).toNat ≤ (totalLen data).toNat →
        (8 ≤ (payloadLen data).toNat ↔ (ihl data).toNat + 8 ≤ (totalLen data).toNat) := by
      intro order
      have bound := (totalLen data).isLt
      rw [payloadLen_toNat]
      omega
    rw [handled,all_note_bind,handleUdp_views]
    constructor
    · rintro ⟨inside,datagram⟩
      have order := (ipView_inside udp .udp).mp inside
      exact ⟨fun arp => absurd udp (not_carries_of_arp arp),fun _ => order,
        fun _ long => datagram ((enough order).mpr long)⟩
    · intro agree
      have order := agree.header (.inr udp)
      exact ⟨(ipView_inside udp .udp).mpr order,
        fun long => agree.datagram udp ((enough order).mp long)⟩
  · rw [handled]
    simp only [all_pure,true_iff]
    exact ⟨fun other => absurd other arp,fun other => (other.elim icmp udp).elim,
      fun other => absurd other udp⟩

/-- A frame that ends behind the type of an ARP packet. -/
def shortArp : Nat → Byte := fun i => [0,0,0,0,0,0,0,0,0,0,0,0,0x08,0x06].getD i 0

theorem short_arp_outside : ¬∀ (env : Env) (s : State) (data : Nat → Byte) (len : Half),
    (netHandlePacket env s data len).All (Event.ViewInside len) := by
  intro always
  have inside := always default (netInit .e1000 broadcast) shortArp 14
  have arp : IsArp shortArp 14 := ⟨by decide,by decide⟩
  exact absurd ((arp_views arp).mp inside) (by decide)

end NimrodOS.Net
