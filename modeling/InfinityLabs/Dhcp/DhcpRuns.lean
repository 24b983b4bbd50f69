import InfinityLabs.Lib.Runs
import InfinityLabs.Dhcp.Allocation

/-!
# Runs of the DHCP manager

The calls of `DHCPAllocateIP` and `DHCPFreeIP` in any order, with arbitrary
addresses and with any outcome of each `malloc`.  A call that runs out of memory
leaves nodes behind that hold no host, so every reachable manager is well-formed
all the same.
-/

namespace InfinityLabs
namespace Dhcp

open Lib

/-! ## Insertions with any memory -/

/-- An insertion keeps the shape of the trie, and the hosts that it holds. -/
theorem InsertionCase.keeps {malloc : Nat → Bool} {t : Trie} {d requested : Nat}
    {result : Insertion} (ht : t.Wf d) (hrequested : requested < 2 ^ d)
    (hcase : InsertionCase malloc t d d requested result) :
    result.trie.Wf d ∧ result.trie.isNull = false ∧
      ∀ h < 2 ^ d, Holds t d h → Holds result.trie d h := by
  cases hcase with
  | inserted hx _ =>
      have hlt := hx.lt (Nat.le_refl d) hrequested
      exact ⟨occupy_wf _ ht, isNull_occupy _ _ _, fun h hh hold =>
        (holds_occupy hlt hh t).mpr (Or.inr hold)⟩
  | outOfMemory _ _ hsame => exact ⟨hsame.wf, hsame.node, fun h _ hold => (hsame.holds h).mpr hold⟩
  | unavailable hnone =>
      refine ⟨ht, ?_, fun h _ hold => hold⟩
      cases t with
      | null => exact absurd (.free (by simp [Holds, Trie.isLeaf])) (hnone requested)
      | node left right isLeaf hasFree => rfl

/-- **`TRIE_SUCCESS` grants the request**: it is the status of the insertion of a free
value for whose path memory suffices, and of no other. -/
theorem InsertionCase.success_iff {malloc : Nat → Bool} {t : Trie} {d requested : Nat}
    {result : Insertion} (hcase : InsertionCase malloc t d d requested result) :
    result.status = .TRIE_SUCCESS ↔
      (¬ Holds t d requested ∧ Suffices malloc requested d t) ∧
        result = ⟨occupy d requested t, .TRIE_SUCCESS, some requested⟩ := by
  cases hcase with
  | @inserted x hx hmemory =>
      simp only [insertStatus]
      by_cases hsame : x = requested
      · subst hsame
        simp only [if_true, and_true]
        exact ⟨fun _ => ⟨hx.free_end, hmemory⟩, fun _ => trivial⟩
      · simp [hsame]
  | outOfMemory _ _ _ => simp
  | unavailable _ => simp

/-- A free value is granted if memory suffices. -/
theorem trieInsert_success {malloc : Nat → Bool} {t : Trie} {d requested : Nat}
    (ht : t.Wf d) (hnode : t.isNull = false) (hfree : ¬ Holds t d requested)
    (hmemory : Suffices malloc requested d t) :
    (trieInsert malloc t requested d).status = .TRIE_SUCCESS := by
  have hcase := trieInsert_cases malloc ht hnode requested
  generalize trieInsert malloc t requested d = result at hcase ⊢
  cases hcase with
  | inserted hx _ => simp [insertStatus, hx.eq_of_free hfree]
  | outOfMemory hx hshort _ =>
      rw [hx.eq_of_free hfree] at hshort
      exact absurd hmemory hshort
  | unavailable hnone => exact absurd (.free hfree) (hnone requested)

/-- A success leaves the trie with the requested value occupied. -/
theorem trieInsert_trie_of_success {malloc : Nat → Bool} {t : Trie} {d requested : Nat}
    (ht : t.Wf d) (hnode : t.isNull = false)
    (hsuccess : (trieInsert malloc t requested d).status = .TRIE_SUCCESS) :
    (trieInsert malloc t requested d).trie = occupy d requested t := by
  have hgranted := (trieInsert_cases malloc ht hnode requested).success_iff.mp hsuccess
  rw [hgranted.2]

/-! ## The machine -/

/-- The calls of the clients, with the outcomes of `malloc` in a call that allocates. -/
inductive DhcpAction where
  | allocate (malloc : Nat → Nat → Bool) (requestedIp : Ipv4)
  | free (ip : Ipv4)

/-- A call. -/
def Dhcp.step (dhcp : Dhcp) : DhcpAction → Dhcp
  | .allocate malloc requestedIp => (dhcpAllocateIp malloc dhcp requestedIp).dhcp
  | .free ip => (dhcpFreeIp dhcp ip).1

/-- The runs that start with a successful `DHCPCreate`. -/
def dhcpMachine (netip : Ipv4) (mask : Nat) : Machine Dhcp DhcpAction where
  start dhcp := ∃ malloc, dhcpCreate malloc netip mask = some dhcp
  step dhcp a := some (dhcp.step a)

/-- The manager that a successful `DHCPCreate` returns. -/
theorem dhcpCreate_eq {malloc : Nat → Nat → Bool} {netip : Ipv4} {mask : Nat} {dhcp : Dhcp}
    (hcreate : dhcpCreate malloc netip mask = some dhcp) :
    dhcp = ⟨occupy (IPv4_BITS - mask) (1 <<< (IPv4_BITS - mask) - 1)
        (occupy (IPv4_BITS - mask) GATEWAY_ADDRESS_HOST
          (occupy (IPv4_BITS - mask) NETWORK_ADDRESS_HOST .empty)),
      convertSubnetToUInt netip mask, IPv4_BITS - mask⟩ := by
  simp only [dhcpCreate] at hcreate
  generalize IPv4_BITS - mask = d at hcreate ⊢
  have hempty : Trie.empty.Wf d := Trie.wf_empty d
  split at hcreate
  · cases hcreate
  · split at hcreate
    · cases hcreate
    · rename_i _ hnetwork
      rw [trieInsert_trie_of_success hempty rfl (not_not.mp hnetwork)] at hcreate
      have hwf := occupy_wf NETWORK_ADDRESS_HOST hempty
      have hnode := isNull_occupy d NETWORK_ADDRESS_HOST .empty
      split at hcreate
      · cases hcreate
      · rename_i hgateway
        rw [trieInsert_trie_of_success hwf hnode (not_not.mp hgateway)] at hcreate
        have hwf' := occupy_wf GATEWAY_ADDRESS_HOST hwf
        have hnode' := isNull_occupy d GATEWAY_ADDRESS_HOST
          (occupy d NETWORK_ADDRESS_HOST .empty)
        split at hcreate
        · cases hcreate
        · rename_i hbroadcast
          rw [trieInsert_trie_of_success hwf' hnode' (not_not.mp hbroadcast)] at hcreate
          exact (Option.some.inj hcreate).symm

/-- Whatever memory `DHCPCreate` had, it returns what it returns with memory. -/
theorem dhcpCreate_wf {malloc : Nat → Nat → Bool} {netip : Ipv4} {mask : Nat} (hlow : 2 ≤ mask)
    (hhigh : mask ≤ 30) {dhcp : Dhcp} (hcreate : dhcpCreate malloc netip mask = some dhcp) :
    dhcp.Wf netip mask := by
  obtain ⟨dhcp', hcreate', hd, -⟩ := dhcpCreate_spec netip hlow hhigh
  rw [dhcpCreate_eq hcreate, ← dhcpCreate_eq hcreate']
  exact hd

/-! ## Every reachable manager is well-formed -/

/-- A manager whose trie an insertion has changed. -/
theorem Dhcp.Wf.insert {netip : Ipv4} {mask : Nat} {dhcp : Dhcp} (hd : dhcp.Wf netip mask)
    (malloc : Nat → Bool) {requested : Nat} (hrequested : requested < 2 ^ dhcp.depth) :
    Dhcp.Wf netip mask
      { dhcp with trie := (trieInsert malloc dhcp.trie requested dhcp.depth).trie } := by
  obtain ⟨hwf, hnode, hkeeps⟩ :=
    (trieInsert_cases malloc hd.trie hd.node requested).keeps hd.trie hrequested
  exact ⟨hd.low, hd.high, hd.depth, hd.network, hwf, hnode, fun h hreserved =>
    hkeeps h (isReservedHost_lt hd.four_le hreserved) (hd.reserved h hreserved)⟩

/-- An allocation keeps the manager well-formed. -/
theorem Dhcp.Wf.allocate {netip : Ipv4} {mask : Nat} {dhcp : Dhcp} (hd : dhcp.Wf netip mask)
    (malloc : Nat → Nat → Bool) (requestedIp : Ipv4) :
    (dhcpAllocateIp malloc dhcp requestedIp).dhcp.Wf netip mask := by
  show (attemptAllocation malloc dhcp requestedIp).dhcp.Wf netip mask
  have hfirst := hd.insert (malloc 0) (hd.hostOf_lt requestedIp)
  unfold attemptAllocation
  split
  · exact hd.insert (malloc 0) hd.first_lt
  · dsimp only
    split
    · exact hfirst.insert (malloc 1) hfirst.first_lt
    · exact hfirst

/-- A free keeps the manager well-formed. -/
theorem Dhcp.Wf.free {netip : Ipv4} {mask : Nat} {dhcp : Dhcp} (hd : dhcp.Wf netip mask)
    (ip : Ipv4) : (dhcpFreeIp dhcp ip).1.Wf netip mask := by
  rcases dhcpFreeIp_cases hd ip with ⟨status, -, hresult⟩ | ⟨hreserved, -, hresult⟩
  · rwa [hresult]
  · rw [hresult]
    exact hd.giveBack (hd.hostOf_lt ip) hreserved

/-- **Every reachable manager is well-formed.** -/
theorem dhcpMachine_wf {netip : Ipv4} {mask : Nat} (hlow : 2 ≤ mask) (hhigh : mask ≤ 30)
    {dhcp : Dhcp} (hreached : (dhcpMachine netip mask).Reached dhcp) : dhcp.Wf netip mask := by
  refine hreached.invariant (I := fun dhcp => dhcp.Wf netip mask)
    (fun dhcp ⟨malloc, hcreate⟩ => dhcpCreate_wf hlow hhigh hcreate)
    fun dhcp a dhcp' hd _ hstep => ?_
  obtain rfl : dhcp.step a = dhcp' := Option.some.inj hstep
  cases a with
  | allocate malloc requestedIp => exact hd.allocate malloc requestedIp
  | free ip => exact hd.free ip

end Dhcp
end InfinityLabs
