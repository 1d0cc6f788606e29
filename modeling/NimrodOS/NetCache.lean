import NimrodOS.Lib.Run
import NimrodOS.Lib.SlotMap
import NimrodOS.NetKeeps

/-! The ARP cache as a map of at most 16 addresses, over any sequence of announcements. -/
namespace NimrodOS.Net

open Wire Logged Transition

variable {env : Env} {s t : State} {i j : Fin 16} {ip : Word} {mac : Mac} {e : ArpEntry}
  {data : Nat → Byte} {len : Half}

/-- What an ARP packet says about its sender. -/
structure Announcement where
  ip : Word
  mac : Mac

def Announces (s : State) (a : Announcement) (t : State) : Prop := arpUpdate s a.ip a.mac = t

/-- The address is unknown and all entries are valid. -/
def Evicts (s : State) (ip : Word) : Prop :=
  ∀ i, (s.arpCache i).valid ≠ 0 ∧ (s.arpCache i).ip ≠ ip

instance (s : State) (ip : Word) : Decidable (Evicts s ip) := inferInstanceAs (Decidable (∀ _, _))

/-- What is known of an address after one more announcement. -/
def memorise (ip : Word) (known : Option Mac) (entry : State × Announcement) : Option Mac :=
  if entry.2.ip = ip then some entry.2.mac
  else if Evicts entry.1 entry.2.ip ∧ (entry.1.arpCache 0).ip = ip then none
  else known

/-- The latest announcement of an address, unless its entry was evicted since. -/
def latestMac (past : List (State × Announcement)) (ip : Word) : Option Mac :=
  past.foldl (memorise ip) none

/-- What the cache holds after announcements, and what one more does to it. -/
structure Remembers (past : List (State × Announcement)) (s : State) : Prop where
  distinct : ∀ i j, (s.arpCache i).valid ≠ 0 → (s.arpCache j).valid ≠ 0 →
    (s.arpCache i).ip = (s.arpCache j).ip → i = j
  latest : ∀ ip, (arpLookup s ip).map ArpEntry.mac = latestMac past ip
  never : ∀ ip, (∀ entry ∈ past, entry.2.ip ≠ ip) → arpLookup s ip = none
  replaces : ∀ ip mac, Evicts s ip → ∀ i,
    (arpUpdate s ip mac).arpCache i = if i = 0 then ⟨ip,mac,1⟩ else s.arpCache i
  keeps : ∀ ip mac, ¬Evicts s ip → ∀ i, (s.arpCache i).valid ≠ 0 →
    (arpUpdate s ip mac).arpCache i =
      if (s.arpCache i).ip = ip then {s.arpCache i with mac := mac} else s.arpCache i

/-! The searches. -/

theorem arpSlot_some (found : arpSlot s ip = some i) :
    (s.arpCache i).valid ≠ 0 ∧ (s.arpCache i).ip = ip := by
  unfold arpSlot at found
  exact of_decide_eq_true (Fin.find?_eq_some_iff.mp found).1

theorem arpSlot_none (missing : arpSlot s ip = none) (i : Fin 16) :
    ¬((s.arpCache i).valid ≠ 0 ∧ (s.arpCache i).ip = ip) := by
  unfold arpSlot at missing
  exact of_decide_eq_false (Fin.find?_eq_none_iff.mp missing i)

theorem arpFreeSlot_some (found : arpFreeSlot s = some i) : (s.arpCache i).valid = 0 := by
  unfold arpFreeSlot at found
  exact of_decide_eq_true (Fin.find?_eq_some_iff.mp found).1

theorem arpFreeSlot_none (full : arpFreeSlot s = none) (i : Fin 16) : (s.arpCache i).valid ≠ 0 := by
  unfold arpFreeSlot at full
  exact of_decide_eq_false (Fin.find?_eq_none_iff.mp full i)

/-- An announcement refreshes the entry of its address, fills a hole or evicts the first
entry. -/
theorem arpUpdate_cases (s : State) (ip : Word) (mac : Mac) :
    (∃ i, (s.arpCache i).valid ≠ 0 ∧ (s.arpCache i).ip = ip ∧
      arpUpdate s ip mac = s.setArp i {s.arpCache i with mac := mac}) ∨
    (∃ i, (s.arpCache i).valid = 0 ∧ (∀ j, ¬((s.arpCache j).valid ≠ 0 ∧ (s.arpCache j).ip = ip)) ∧
      arpUpdate s ip mac = s.setArp i ⟨ip,mac,1⟩) ∨
    (Evicts s ip ∧ arpUpdate s ip mac = s.setArp 0 ⟨ip,mac,1⟩) := by
  rw [arpUpdate]
  cases found : arpSlot s ip with
  | some i =>
    obtain ⟨valid,same⟩ := arpSlot_some found
    exact .inl ⟨i,valid,same,rfl⟩
  | none =>
    have unknown := arpSlot_none found
    cases free : arpFreeSlot s with
    | some i => exact .inr (.inl ⟨i,arpFreeSlot_some free,unknown,rfl⟩)
    | none =>
      have full := arpFreeSlot_none free
      exact .inr (.inr ⟨fun i => ⟨full i,fun same => unknown i ⟨full i,same⟩⟩,rfl⟩)

/-! The cache as a table of slots. -/

def cacheTable (s : State) : SlotMap.Table 16 Word Mac :=
  fun i => if (s.arpCache i).valid = 0 then none else some ((s.arpCache i).ip,(s.arpCache i).mac)

theorem cacheTable_eq_some : cacheTable s i = some (ip,mac) ↔
    (s.arpCache i).valid ≠ 0 ∧ (s.arpCache i).ip = ip ∧ (s.arpCache i).mac = mac := by
  rw [cacheTable]
  split
  · rename_i unused
    simp [unused]
  · rename_i used
    rw [Option.some.injEq,Prod.mk.injEq]
    exact (and_iff_right used).symm

theorem cacheTable_setArp (valid : e.valid ≠ 0) :
    cacheTable (s.setArp i e) = SlotMap.set (cacheTable s) i (some (e.ip,e.mac)) := by
  funext j
  by_cases here : j = i
  · simp only [cacheTable,State.setArp,SlotMap.set,here,if_true,if_neg valid]
  · simp only [cacheTable,State.setArp,SlotMap.set,here,if_false]

section

variable {m : Finmap fun _ : Word => Mac}

/-- The search finds what the map holds. -/
theorem lookup_of_represents (rep : SlotMap.Represents (cacheTable s) m) (ip : Word) :
    (arpLookup s ip).map ArpEntry.mac = m.lookup ip := by
  rw [arpLookup,Option.map_map]
  cases found : arpSlot s ip with
  | some i =>
    obtain ⟨valid,same⟩ := arpSlot_some found
    exact (rep.lookup_of_slot (cacheTable_eq_some.mpr ⟨valid,same,rfl⟩)).symm
  | none =>
    refine (rep.lookup_none fun i a here same => ?_).symm
    obtain ⟨valid,own,-⟩ := cacheTable_eq_some.mp here
    exact arpSlot_none found i ⟨valid,own.trans same⟩

/-- The map after an announcement. -/
def remember (s : State) (m : Finmap fun _ : Word => Mac) (ip : Word) (mac : Mac) :
    Finmap fun _ : Word => Mac :=
  if Evicts s ip then (m.erase (s.arpCache 0).ip).insert ip mac else m.insert ip mac

theorem represents_update (rep : SlotMap.Represents (cacheTable s) m) (ip : Word) (mac : Mac) :
    SlotMap.Represents (cacheTable (arpUpdate s ip mac)) (remember s m ip mac) := by
  have one : (1 : Byte) ≠ 0 := by decide
  rw [remember]
  rcases arpUpdate_cases s ip mac with ⟨i,valid,same,made⟩ | ⟨i,free,unknown,made⟩ | ⟨evicts,made⟩
  · have known : ¬Evicts s ip := fun evicts => (evicts i).2 same
    rw [if_neg known,made,cacheTable_setArp (e := {s.arpCache i with mac := mac}) valid,same]
    have here : cacheTable s i = some (ip,(s.arpCache i).mac) :=
      cacheTable_eq_some.mpr ⟨valid,same,rfl⟩
    refine rep.insert (fun j a held own => rep.distinct j i _ _ held here own) ?_
    rintro a held
    rw [← Option.some.inj (here.symm.trans held)]
  · have room : ¬Evicts s ip := fun evicts => (evicts i).1 free
    rw [if_neg room,made,cacheTable_setArp (e := ⟨ip,mac,1⟩) one]
    refine rep.insert (fun j a held own => ?_) fun a held => ?_
    · obtain ⟨valid,same,-⟩ := cacheTable_eq_some.mp held
      exact absurd ⟨valid,same.trans own⟩ (unknown j)
    · exact absurd free (cacheTable_eq_some.mp held).1
  · have first : cacheTable s 0 = some ((s.arpCache 0).ip,(s.arpCache 0).mac) :=
      cacheTable_eq_some.mpr ⟨(evicts 0).1,rfl,rfl⟩
    rw [if_pos evicts,made,cacheTable_setArp (e := ⟨ip,mac,1⟩) one]
    have cleared : SlotMap.set (cacheTable s) 0 (some (ip,mac)) =
        SlotMap.set (SlotMap.set (cacheTable s) 0 none) 0 (some (ip,mac)) := by
      funext j
      by_cases here : j = 0 <;> simp [SlotMap.set,here]
    rw [cleared]
    refine (rep.erase first).insert (fun j a held own => ?_) fun a held => ?_
    · rcases SlotMap.set_eq_some.mp held with ⟨-,none⟩ | ⟨-,held⟩
      · cases none
      · obtain ⟨-,same,-⟩ := cacheTable_eq_some.mp held
        exact absurd (same.trans own) (evicts j).2
    · simp [SlotMap.set] at held

theorem lookup_remember (s : State) (m : Finmap fun _ : Word => Mac) (a : Announcement) (ip : Word) :
    (remember s m a.ip a.mac).lookup ip = memorise ip (m.lookup ip) (s,a) := by
  rw [remember,memorise]
  by_cases own : a.ip = ip
  · rw [if_pos own]
    split_ifs <;> rw [own,Finmap.lookup_insert]
  · rw [if_neg own]
    by_cases evicts : Evicts s a.ip
    · rw [if_pos evicts,Finmap.lookup_insert_of_ne _ (Ne.symm own)]
      by_cases victim : (s.arpCache 0).ip = ip
      · rw [if_pos ⟨evicts,victim⟩,victim,Finmap.lookup_erase]
      · rw [if_neg fun both => victim both.2,Finmap.lookup_erase_ne (Ne.symm victim)]
    · rw [if_neg evicts,if_neg fun both => evicts both.1,Finmap.lookup_insert_of_ne _ (Ne.symm own)]

end

/-! ARP packets. -/

def arpPacket (data : Nat → Byte) : ArpPacket := ArpPacket.read data 14

theorem cache_stable (q : (Fin 16 → ArpEntry) → Prop) : Stable fun t => q t.arpCache :=
  fun _ _ _ before => before

/-- Every ARP packet of Ethernet and IP announces its sender. -/
theorem arp_announces (arp : IsArp data len) (ether : ntohs (arpPacket data).hwType = 1)
    (ipv4 : ntohs (arpPacket data).protoType = etherTypeIp) :
    (netHandlePacket env s data len).Returns fun t =>
      t.arpCache = (arpUpdate s (ntohl (arpPacket data).senderIp) (arpPacket data).senderMac).arpCache := by
  rw [packet_of_arp arp]
  apply Returns.after
  intro _
  rw [handleArp]
  dsimp only
  rw [← arpPacket,if_neg (not_not.mpr ether),if_neg (not_not.mpr ipv4)]
  split_ifs
  · exact arpSendReply_keeps (cache_stable (· = _)) rfl
  · simp

/-! Runs. -/

section Runs

variable {past : List (State × Announcement)} {nic : Nic} {own : Mac}

theorem represents_init (nic : Nic) (own : Mac) :
    SlotMap.Represents (cacheTable (netInit nic own)) ∅ := SlotMap.represents_empty

theorem run_represents (run : Run Announces (netInit nic own) past s) :
    ∃ m, SlotMap.Represents (cacheTable s) m ∧ ∀ ip, m.lookup ip = latestMac past ip := by
  induction run with
  | nil => exact ⟨∅,represents_init nic own,fun ip => Finmap.lookup_empty ip⟩
  | @snoc past s t a _ moved ih =>
    obtain ⟨m,rep,latest⟩ := ih
    obtain rfl := moved
    refine ⟨_,represents_update rep a.ip a.mac,fun ip => ?_⟩
    rw [lookup_remember,latest,latestMac,latestMac,List.foldl_append]
    rfl

/-- Nothing is known of an address that was not announced. -/
theorem latestMac_never (silent : ∀ entry ∈ past, entry.2.ip ≠ ip) : latestMac past ip = none := by
  induction past using List.reverseRecOn with
  | nil => rfl
  | append_singleton past entry ih =>
    rw [List.forall_mem_append,List.forall_mem_singleton] at silent
    have before : past.foldl (memorise ip) none = none := ih silent.1
    rw [latestMac,List.foldl_append,before,List.foldl_cons,List.foldl_nil,memorise,if_neg silent.2]
    split_ifs <;> rfl

/-- Only an eviction changes the address of a valid entry. -/
theorem arpUpdate_keeps (distinct : ∀ i j, (s.arpCache i).valid ≠ 0 → (s.arpCache j).valid ≠ 0 →
      (s.arpCache i).ip = (s.arpCache j).ip → i = j)
    (mac : Mac) (room : ¬Evicts s ip) (valid : (s.arpCache i).valid ≠ 0) :
    (arpUpdate s ip mac).arpCache i =
      if (s.arpCache i).ip = ip then {s.arpCache i with mac := mac} else s.arpCache i := by
  rcases arpUpdate_cases s ip mac with ⟨j,used,same,made⟩ | ⟨j,free,unknown,made⟩ | ⟨evicts,-⟩
  · rw [made]
    by_cases here : i = j
    · rw [here,if_pos same]
      exact if_pos rfl
    · have other : (s.arpCache i).ip ≠ ip := fun own => here (distinct i j valid used (own.trans same.symm))
      rw [if_neg other]
      exact if_neg here
  · have here : i ≠ j := by
      rintro rfl
      exact valid free
    have other : (s.arpCache i).ip ≠ ip := fun own => unknown i ⟨valid,own⟩
    rw [made,if_neg other]
    exact if_neg here
  · exact absurd evicts room

/-- The cache over any sequence of announcements. -/
theorem cache_remembers (run : Run Announces (netInit nic own) past s) : Remembers past s := by
  obtain ⟨m,rep,known⟩ := run_represents run
  have distinct : ∀ i j, (s.arpCache i).valid ≠ 0 → (s.arpCache j).valid ≠ 0 →
      (s.arpCache i).ip = (s.arpCache j).ip → i = j := fun i j validI validJ same =>
    rep.distinct i j _ _ (cacheTable_eq_some.mpr ⟨validI,rfl,rfl⟩)
      (cacheTable_eq_some.mpr ⟨validJ,rfl,rfl⟩) same
  have latest : ∀ ip, (arpLookup s ip).map ArpEntry.mac = latestMac past ip := fun ip =>
    (lookup_of_represents rep ip).trans (known ip)
  refine ⟨distinct,latest,fun ip silent => ?_,fun ip mac evicts i => ?_,
    fun ip mac room i valid => arpUpdate_keeps distinct mac room valid⟩
  · exact Option.map_eq_none_iff.mp ((latest ip).trans (latestMac_never silent))
  · rcases arpUpdate_cases s ip mac with ⟨j,-,same,-⟩ | ⟨j,free,-⟩ | ⟨-,made⟩
    · exact absurd same (evicts j).2
    · exact absurd free (evicts j).1
    · rw [made]
      rfl

end Runs

def neighbour (k : Nat) : Announcement := ⟨0x0A000210 + BitVec.ofNat 32 k,Vector.replicate 6 (BitVec.ofNat 8 k)⟩

/-- The gateway, 16 neighbours of its own, and one of them once more with another address. -/
def crowd : List Announcement :=
  ⟨gateway,broadcast⟩ :: ((List.range 16).map neighbour ++ [⟨0x0A000215,Vector.replicate 6 99⟩])

/-- The last new neighbour takes the place of the gateway. -/
theorem cache_remembers_crowd : ∃ past s, Run Announces (netInit .e1000 broadcast) past s ∧
    (∀ entry ∈ past, entry.2 ∈ crowd) ∧ Remembers past s ∧ latestMac past gateway = none ∧
    latestMac past 0x0A00021F = some (Vector.replicate 6 15) ∧
    latestMac past 0x0A000215 = some (Vector.replicate 6 99) := by
  have run : Run Announces (netInit .e1000 broadcast) _ _ :=
    run_trace (fun s (a : Announcement) => arpUpdate s a.ip a.mac) (netInit .e1000 broadcast) crowd
  have remembers := cache_remembers run
  refine ⟨_,_,run,fun _ => trace_mem,remembers,?_,?_,?_⟩
  · rw [← remembers.latest]
    decide +kernel
  · rw [← remembers.latest]
    decide +kernel
  · rw [← remembers.latest]
    decide +kernel

end NimrodOS.Net
