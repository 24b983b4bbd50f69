import InfinityLabs.Dhcp.DhcpRuns
import InfinityLabs.Dhcp.Leases

/-!
# Addresses of other networks

Both calls cut the host out of an address and never look at its network bits.  An
address of another network therefore stands for the local address with the same host:
a free of it ends that lease, and a request for it is answered with `SUCCESS` and the
local address.
-/

namespace InfinityLabs
namespace Dhcp

open Lib

/-- The free is refused, and no host changes. -/
def RefusesFree (dhcp : Dhcp) (ip : Ipv4) : Prop :=
  (dhcpFreeIp dhcp ip).2 ≠ .SUCCESS ∧
    ∀ h < 2 ^ dhcp.depth, (dhcpFreeIp dhcp ip).1.Allocated h ↔ dhcp.Allocated h

/-- The call answers `SUCCESS` only with the requested address. -/
def SuccessGrantsRequest (malloc : Nat → Nat → Bool) (dhcp : Dhcp) (requestedIp : Ipv4) : Prop :=
  (dhcpAllocateIp malloc dhcp requestedIp).status = .SUCCESS →
    (dhcpAllocateIp malloc dhcp requestedIp).allocatedIp = some requestedIp

variable {netip : Ipv4} {mask : Nat} {dhcp : Dhcp}

/-- A free is refused for a reserved host and for one that is not allocated. -/
theorem refusesFree_iff (hd : dhcp.Wf netip mask) (ip : Ipv4) :
    RefusesFree dhcp ip ↔
      isReservedHost (dhcp.hostOf ip) dhcp.depth = true ∨ ¬ dhcp.Allocated (dhcp.hostOf ip) := by
  rw [RefusesFree]
  rcases dhcpFreeIp_cases hd ip with ⟨status, hstatus, hresult⟩ | ⟨hreserved, htaken, hresult⟩
  · rw [hresult]
    refine iff_of_true ⟨hstatus, fun h _ => Iff.rfl⟩ ?_
    by_cases hreserved : isReservedHost (dhcp.hostOf ip) dhcp.depth = true
    · exact Or.inl hreserved
    · -- a host that is allocated and not reserved would be given back
      apply Or.inr
      intro htaken
      rcases trieFree_spec hd.trie hd.node (dhcp.hostOf ip) with ⟨-, hfree⟩ | ⟨hfree, -⟩
      · rw [dhcpFreeIp] at hresult
        simp only [hreserved, if_false, hfree, Bool.false_eq_true] at hresult
        exact hstatus (congrArg Prod.snd hresult).symm
      · exact hfree htaken
  · rw [hresult]
    apply iff_of_false
    · exact fun hrefused => hrefused.1 rfl
    · rw [hreserved]
      simpa using htaken

/-- The second attempt of a call never answers `SUCCESS`. -/
theorem allocateNextAvailable_ne_success (malloc : Nat → Bool) (dhcp : Dhcp) :
    (allocateNextAvailable malloc dhcp).status ≠ .SUCCESS := by
  rw [allocateNextAvailable]
  dsimp only
  generalize (trieInsert malloc dhcp.trie FIRST_ALLOCATABLE_HOST dhcp.depth).status = status
  cases status <;> decide

/-- **`SUCCESS` is the answer to a request for a free host**, if memory suffices for its
path. -/
theorem dhcpAllocateIp_success_iff (hd : dhcp.Wf netip mask) (malloc : Nat → Nat → Bool)
    (requestedIp : Ipv4) :
    (dhcpAllocateIp malloc dhcp requestedIp).status = .SUCCESS ↔
      wantsAny dhcp requestedIp = false ∧ ¬ dhcp.Allocated (dhcp.hostOf requestedIp) ∧
        Suffices (malloc 0) (dhcp.hostOf requestedIp) dhcp.depth dhcp.trie := by
  show (attemptAllocation malloc dhcp requestedIp).status = .SUCCESS ↔ _
  have hcase := trieInsert_cases (malloc 0) hd.trie hd.node (dhcp.hostOf requestedIp)
  have hgranted := hcase.success_iff
  unfold attemptAllocation
  cases hany : wantsAny dhcp requestedIp with
  | true =>
      rw [if_pos rfl]
      exact iff_of_false (allocateNextAvailable_ne_success _ _) (by simp)
  | false =>
      simp only [Bool.false_eq_true, if_false, true_and]
      generalize trieInsert (malloc 0) dhcp.trie (dhcp.hostOf requestedIp) dhcp.depth = result
        at hcase hgranted ⊢
      by_cases hstatus : result.status = .TRIE_SUCCESS
      · have hfacts := (hgranted.mp hstatus).1
        rw [hstatus]
        exact iff_of_true rfl hfacts
      · refine iff_of_false ?_ fun hfacts => hstatus ?_
        · split
          · exact allocateNextAvailable_ne_success _ _
          · intro hsuccess
            revert hstatus hsuccess
            cases result.status <;> simp [convertTrieStatus]
        · cases hcase with
          | inserted hx _ => simp [insertStatus, hx.eq_of_free hfacts.1]
          | outOfMemory hx hshort _ =>
              rw [hx.eq_of_free hfacts.1] at hshort
              exact absurd hfacts.2 hshort
          | unavailable hnone => exact absurd (.free hfacts.1) (hnone _)

/-- With `SUCCESS` the address of the requested host is returned. -/
theorem allocatedIp_of_success (hd : dhcp.Wf netip mask) {malloc : Nat → Nat → Bool}
    {requestedIp : Ipv4}
    (hsuccess : (dhcpAllocateIp malloc dhcp requestedIp).status = .SUCCESS) :
    (dhcpAllocateIp malloc dhcp requestedIp).allocatedIp =
      some (buildFullIp dhcp.network (dhcp.hostOf requestedIp)) := by
  obtain ⟨hany, hfree, hmemory⟩ := (dhcpAllocateIp_success_iff hd malloc requestedIp).mp hsuccess
  have hresult := ((trieInsert_cases (malloc 0) hd.trie hd.node
    (dhcp.hostOf requestedIp)).success_iff.mp
      (trieInsert_success hd.trie hd.node hfree hmemory)).2
  simp [dhcpAllocateIp, attemptAllocation, hany, hresult, convertTrieStatus,
    DhcpStatus.handsOut]

/-- The address that is built for the host of an address is this address in the subnet
only. -/
theorem buildFullIp_hostOf_eq_iff (hd : dhcp.Wf netip mask) (ip : Ipv4) :
    buildFullIp dhcp.network (dhcp.hostOf ip) = ip ↔ InSubnet netip mask ip := by
  obtain ⟨hsubnet, hhost⟩ := buildFullIp_host hd (hd.hostOf_lt ip)
  constructor
  · intro hsame
    rwa [hsame] at hsubnet
  · exact fun hip => (hostOf_eq_iff hd hsubnet hip).mp hhost

/-- **When foreign addresses are refused**: in a reachable manager a free of an address
of another network is refused exactly if its host is reserved or not allocated, and a
request is answered with `SUCCESS` for another address exactly if it is of another
network, its host is neither reserved nor allocated, and memory suffices. -/
theorem dhcp_foreignRefused (hlow : 2 ≤ mask) (hhigh : mask ≤ 30)
    (hreached : (dhcpMachine netip mask).Reached dhcp) :
    (∀ ip, ¬ InSubnet netip mask ip →
      (RefusesFree dhcp ip ↔
        isReservedHost (dhcp.hostOf ip) dhcp.depth = true ∨
          ¬ dhcp.Allocated (dhcp.hostOf ip))) ∧
    ∀ malloc requestedIp,
      SuccessGrantsRequest malloc dhcp requestedIp ↔
        InSubnet netip mask requestedIp ∨ wantsAny dhcp requestedIp = true ∨
          dhcp.Allocated (dhcp.hostOf requestedIp) ∨
          ¬ Suffices (malloc 0) (dhcp.hostOf requestedIp) dhcp.depth dhcp.trie := by
  have hd := dhcpMachine_wf hlow hhigh hreached
  refine ⟨fun ip _ => refusesFree_iff hd ip, fun malloc requestedIp => ?_⟩
  have hgrants : SuccessGrantsRequest malloc dhcp requestedIp ↔
      ((dhcpAllocateIp malloc dhcp requestedIp).status = .SUCCESS →
        InSubnet netip mask requestedIp) := by
    apply forall_congr'
    intro hsuccess
    rw [allocatedIp_of_success hd hsuccess, Option.some.injEq, buildFullIp_hostOf_eq_iff hd]
  rw [hgrants, dhcpAllocateIp_success_iff hd]
  by_cases hsubnet : InSubnet netip mask requestedIp
  · simp [hsubnet]
  · cases wantsAny dhcp requestedIp with
    | true => simp
    | false =>
        simp only [hsubnet, true_and, imp_false, not_and_or, not_not, false_or,
          Bool.false_eq_true]

/-- A request for 10.0.0.2 is granted with 192.168.1.2, and then a free of 10.0.0.2 gives
192.168.1.2 back. -/
theorem dhcp_foreignHonoured :
    (¬ ∀ (netip : Ipv4) (mask : Nat), 2 ≤ mask → mask ≤ 30 →
      ∀ dhcp, (dhcpMachine netip mask).Reached dhcp →
        ∀ malloc requestedIp, SuccessGrantsRequest malloc dhcp requestedIp) ∧
    ¬ ∀ (netip : Ipv4) (mask : Nat), 2 ≤ mask → mask ≤ 30 →
      ∀ dhcp, (dhcpMachine netip mask).Reached dhcp →
        ∀ ip, ¬ InSubnet netip mask ip → RefusesFree dhcp ip := by
  have hstart : (dhcpMachine sampleNet 29).Reached sampleDhcp := .start ⟨memory, sample_start.1⟩
  constructor
  · intro hclaim
    have hgrants := hclaim sampleNet 29 (by decide) (by decide) sampleDhcp hstart memory
      ⟨10, 0, 0, 2⟩
    revert hgrants
    unfold SuccessGrantsRequest
    decide +kernel
  · intro hclaim
    have hstep : (dhcpMachine sampleNet 29).step sampleDhcp (.allocate memory ⟨10, 0, 0, 2⟩) =
        some (sampleDhcp.step (.allocate memory ⟨10, 0, 0, 2⟩)) := rfl
    have hrefused := hclaim sampleNet 29 (by decide) (by decide) _
      (hstart.step trivial hstep) ⟨10, 0, 0, 2⟩ (by decide)
    apply hrefused.1
    decide +kernel

/-- A new manager refuses the free of a foreign address. -/
theorem dhcp_foreignRefused_sample :
    (∀ ip, ¬ InSubnet sampleNet 29 ip →
      (RefusesFree sampleDhcp ip ↔
        isReservedHost (sampleDhcp.hostOf ip) sampleDhcp.depth = true ∨
          ¬ sampleDhcp.Allocated (sampleDhcp.hostOf ip))) ∧
    ∀ malloc requestedIp,
      SuccessGrantsRequest malloc sampleDhcp requestedIp ↔
        InSubnet sampleNet 29 requestedIp ∨ wantsAny sampleDhcp requestedIp = true ∨
          sampleDhcp.Allocated (sampleDhcp.hostOf requestedIp) ∨
          ¬ Suffices (malloc 0) (sampleDhcp.hostOf requestedIp) sampleDhcp.depth
            sampleDhcp.trie :=
  dhcp_foreignRefused (by decide) (by decide) (.start ⟨memory, sample_start.1⟩)

end Dhcp
end InfinityLabs
