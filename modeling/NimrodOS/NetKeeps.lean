import NimrodOS.NetSteps

/-! What sending leaves as it is, and what it waits for. -/
namespace NimrodOS.Net

open Wire Libc Logged

variable {env : Env} {s : State} {data payload : Nat → Byte} {len : Half}

/-! What holds of the state while something is sent. -/

/-- Neither the packet buffer nor the counter of packets matters. -/
def Stable (q : State → Prop) : Prop :=
  ∀ s n pktBuf, q s → q {s with ipIdCounter := n,pktBuf := pktBuf}

/-- The states that the waits for an address find. -/
def Env.Finds (env : Env) (q : State → Prop) : Prop :=
  ∀ attempt, ∀ poll ∈ (env.waits attempt).polls, q poll.state

/-- Without polls there is nothing to find. -/
theorem default_finds (q : State → Prop) : (default : Env).Finds q := by
  intro attempt poll found
  cases found

section

variable {q : State → Prop}

theorem handToNic_keeps {total : Half} (before : q s) :
    (handToNic env s total).Returns fun t => q t.1 := by
  rw [handToNic]
  split_ifs
  · simpa using before
  · apply Returns.after
    simpa using before

theorem ethSend_keeps {dst : Mac} {type : Half} (stable : Stable q) (before : q s) :
    (ethSend env s dst type payload len).Returns fun t => q t.1 := by
  rw [ethSend]
  split_ifs
  · simpa using before
  · apply Returns.after
    intro _
    apply Returns.after
    intro _
    apply Returns.after
    intro padded
    exact handToNic_keeps (stable s s.ipIdCounter padded.1 before)

theorem arpSendRequest_keeps {ip : Word} (stable : Stable q) (before : q s) :
    (arpSendRequest env s ip).Returns q :=
  (ethSend_keeps stable before).bind fun _ after => (returns_pure _).mpr after

theorem arpSendReply_keeps {ip : Word} {mac : Mac} (stable : Stable q) (before : q s) :
    (arpSendReply env s ip mac).Returns q :=
  (ethSend_keeps stable before).bind fun _ after => (returns_pure _).mpr after

theorem waitLoop_keeps {start ip : Word} {polls : List Poll}
    (found : ∀ poll ∈ polls, q poll.state) :
    (waitLoop start ip polls).Returns fun t => q t.1 := by
  induction polls with
  | nil => simp [waitLoop]
  | cons poll polls ih =>
    rw [List.forall_mem_cons] at found
    rw [waitLoop]
    split_ifs
    · simpa using found.1
    · cases arpLookup poll.state ip with
      | none => exact ih found.2
      | some entry => simpa using found.1
    · simpa using found.1

theorem resolveLoop_keeps {ip : Word} {attempts : List (Fin 3)} (before : q s)
    (finds : env.Finds q) : (resolveLoop env ip attempts s).Returns fun t => q t.1 := by
  induction attempts generalizing s with
  | nil => simpa [resolveLoop] using before
  | cons attempt attempts ih =>
    rw [resolveLoop]
    apply Returns.after
    intro _
    refine (waitLoop_keeps (finds attempt)).bind ?_
    rintro ⟨t,waited⟩ held
    cases waited with
    | cancelled => simpa using held
    | found mac => simpa using held
    | timedOut => exact ih held

theorem arpResolve_keeps {ip : Word} (before : q s) (finds : env.Finds q) :
    (arpResolve env s ip).Returns fun t => q t.1 := by
  rw [arpResolve]
  cases arpLookup s (nextHop s ip) with
  | none => exact resolveLoop_keeps before finds
  | some entry => simpa using before

theorem ipSend_keeps {dst : Word} {protocol : Byte} (stable : Stable q) (before : q s)
    (finds : env.Finds q) : (ipSend env s dst protocol payload len).Returns fun t => q t.1 := by
  rw [ipSend]
  apply Returns.after
  intro _
  apply Returns.after
  intro _
  refine (arpResolve_keeps (stable s (s.ipIdCounter + 1) s.pktBuf before) finds).bind ?_
  rintro ⟨t,resolved⟩ held
  cases resolved with
  | none => simpa using held
  | some mac => exact ethSend_keeps stable held

/-- An ARP packet changes the cache and what its reply changes. -/
theorem handleArp_keeps {packet : Nat} (stable : Stable q)
    (cached : ∀ s cache, q s → q {s with arpCache := cache}) (before : q s) :
    (handleArp env s data packet).Returns q := by
  have updated (ip : Word) (mac : Mac) : q (arpUpdate s ip mac) := by
    rw [arpUpdate]
    split
    · exact cached s _ before
    · split <;> exact cached s _ before
  rw [handleArp]
  split_ifs
  · simpa using before
  · simpa using before
  · dsimp only
    split_ifs
    · exact arpSendReply_keeps stable (updated _ _)
    · simpa using updated _ _

end

/-! Frames are sent without waiting. -/

section

variable {b : Buffer} {contents : b.Contents} {offset size : Nat}

theorem put_bind (fits : offset + size ≤ b.size) {f : b.Contents → Logs α} :
    (put b contents offset payload size >>= f).result =
      (f (written contents offset payload size)).result := by
  rw [put_eq fits,bind_of_ok rfl]

end

theorem padFrame_ok {pktBuf : Buffer.pktBuf.Contents} {total : Half} :
    ∃ r, (padFrame pktBuf total).result = .ok r := by
  rw [padFrame]
  split_ifs with short
  · have below : total.toNat < 60 := short
    have fits : total.toNat + (60 - total.toNat) ≤ Buffer.pktBuf.size := by
      change _ ≤ 1536
      omega
    rw [put_bind fits]
    exact ⟨_,rfl⟩
  · exact ⟨_,rfl⟩

theorem handToNic_ok {total : Half} : ∃ r, (handToNic env s total).result = .ok r := by
  rw [handToNic]
  split_ifs
  · exact ⟨_,rfl⟩
  · exact ⟨_,rfl⟩

theorem ethSend_ok {dst : Mac} {type : Half} :
    ∃ r, (ethSend env s dst type payload len).result = .ok r := by
  rw [ethSend]
  split_ifs with large
  · exact ⟨_,rfl⟩
  · have room : 14 + len.toNat ≤ 1536 := Nat.not_lt.mp large
    simp only [putBytes]
    rw [put_bind (by rw [eth_length]; decide),put_bind room]
    obtain ⟨padded,ran⟩ := padFrame_ok
    rw [bind_of_ok ran]
    exact handToNic_ok

theorem arpSendRequest_ok (env : Env) (s : State) (ip : Word) :
    ∃ t, (arpSendRequest env s ip).result = .ok t := by
  obtain ⟨r,ran⟩ := ethSend_ok
  rw [arpSendRequest,bind_of_ok ran]
  exact ⟨_,rfl⟩

theorem arpSendReply_ok {ip : Word} {mac : Mac} :
    ∃ t, (arpSendReply env s ip mac).result = .ok t := by
  obtain ⟨r,ran⟩ := ethSend_ok
  rw [arpSendReply,bind_of_ok ran]
  exact ⟨_,rfl⟩

end NimrodOS.Net
