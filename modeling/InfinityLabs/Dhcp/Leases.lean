import InfinityLabs.Lib.Runs
import InfinityLabs.Dhcp.Allocation
import Mathlib.Data.Finset.Card
import Mathlib.Data.Finset.Range
import Mathlib.Data.Finset.Filter
import Mathlib.Tactic.Tauto

/-!
# Leases

A client holds the addresses that `DHCPAllocateIP` handed out to it until
`DHCPFreeIP` takes them back.  The machine below runs both calls in any order, with
arbitrary requests and with memory, next to the list of the live leases.

* No address is handed out twice: every lease holds its host in the trie, and a
  search ends at a host that is not held.
* Hosts leak: a taken request is probed twice, and what the first search allocates
  is dropped.  A request that is not redirected this way changes one host.
* The pool looks exhausted too early: a search comes to few hosts, and gives up
  although others are free.
-/

namespace InfinityLabs
namespace Dhcp

open Lib

/-! ## The machine -/

/-- A manager and the addresses that its clients hold. -/
structure LeaseState where
  dhcp : Dhcp
  leases : List Ipv4
  deriving DecidableEq, Repr

/-- The calls of the clients. -/
inductive LeaseAction where
  | allocate (requestedIp : Ipv4)
  | free (ip : Ipv4)
  deriving DecidableEq, Repr

/-- A call and what it does to the leases.  `DHCPFreeIP` looks at the host alone, so
it ends the lease of this host; of an address in the subnet that is the lease of the
address itself (`hostOf_eq_iff`). -/
def LeaseState.step (s : LeaseState) : LeaseAction → LeaseState
  | .allocate requestedIp =>
      let result := dhcpAllocateIp memory s.dhcp requestedIp
      ⟨result.dhcp, s.leases ++ result.allocatedIp.toList⟩
  | .free ip =>
      let result := dhcpFreeIp s.dhcp ip
      ⟨result.1,
        if result.2 = .SUCCESS then
          s.leases.filter fun lease => s.dhcp.hostOf lease ≠ s.dhcp.hostOf ip
        else s.leases⟩

/-- The runs that start with `DHCPCreate`. -/
def leaseMachine (netip : Ipv4) (mask : Nat) : Machine LeaseState LeaseAction where
  start s := dhcpCreate memory netip mask = some s.dhcp ∧ s.leases = []
  step s a := some (s.step a)

/-! ## Every lease holds its host -/

/-- What every run keeps: a well-formed manager, and leases of the subnet whose
hosts are allocated and not reserved, one lease to a host. -/
structure LeaseState.Wf (netip : Ipv4) (mask : Nat) (s : LeaseState) : Prop where
  dhcp : s.dhcp.Wf netip mask
  inSubnet : ∀ lease ∈ s.leases, InSubnet netip mask lease
  held : ∀ lease ∈ s.leases, s.dhcp.Allocated (s.dhcp.hostOf lease)
  notReserved : ∀ lease ∈ s.leases, isReservedHost (s.dhcp.hostOf lease) s.dhcp.depth = false
  nodup : (s.leases.map s.dhcp.hostOf).Nodup

/-- In the subnet a lease is told by its host. -/
theorem hostOf_eq_iff {netip : Ipv4} {mask : Nat} {dhcp : Dhcp} (hd : dhcp.Wf netip mask)
    {ip ip' : Ipv4} (hip : InSubnet netip mask ip) (hip' : InSubnet netip mask ip') :
    dhcp.hostOf ip = dhcp.hostOf ip' ↔ ip = ip' := by
  constructor
  · intro hhost
    rw [hd.hostOf_eq, hd.hostOf_eq] at hhost
    exact eq_of_inSubnet hd.low hd.high hip hip' hhost
  · rintro rfl
    rfl

/-- The address that a manager builds for a host is one of its subnet and has this
host. -/
theorem buildFullIp_host {netip : Ipv4} {mask : Nat} {dhcp : Dhcp} (hd : dhcp.Wf netip mask)
    {x : Nat} (hx : x < 2 ^ dhcp.depth) :
    InSubnet netip mask (buildFullIp dhcp.network x) ∧
      dhcp.hostOf (buildFullIp dhcp.network x) = x := by
  rw [hd.depth] at hx
  rw [hd.hostOf_eq, hd.network]
  exact buildFullIp_spec hd.low hd.high hx

/-- Hosts are extracted the same way after any call. -/
theorem AllocationCase.hostOf {dhcp : Dhcp} {requestedIp : Ipv4} {result : Allocation}
    (hcase : AllocationCase dhcp requestedIp result) :
    result.dhcp.depth = dhcp.depth ∧ result.dhcp.hostOf = dhcp.hostOf := by
  cases hcase <;> exact ⟨rfl, rfl⟩

/-- What a call hands out: nothing, or the address of a host that it allocates. -/
theorem dhcpAllocateIp_handsOut {netip : Ipv4} {mask : Nat} {dhcp : Dhcp}
    (hd : dhcp.Wf netip mask) (requestedIp : Ipv4) :
    if (dhcpAllocateIp memory dhcp requestedIp).status.handsOut then
      ∃ ip, (dhcpAllocateIp memory dhcp requestedIp).allocatedIp = some ip ∧
        InSubnet netip mask ip ∧ ¬ dhcp.Allocated (dhcp.hostOf ip) ∧
        (dhcpAllocateIp memory dhcp requestedIp).dhcp.Allocated (dhcp.hostOf ip)
    else (dhcpAllocateIp memory dhcp requestedIp).allocatedIp = none := by
  have hcase := (dhcpAllocateIp_cases hd requestedIp).handsOut hd
  split
  · rename_i hout
    rw [if_pos hout] at hcase
    obtain ⟨x, hx, hfree, htaken, hip⟩ := hcase
    obtain ⟨hsubnet, hhost⟩ := buildFullIp_host hd hx
    exact ⟨_, hip, hsubnet, hhost.symm ▸ hfree, hhost.symm ▸ htaken⟩
  · rename_i hout
    rw [if_neg hout] at hcase
    exact hcase

/-- `DHCPCreate` starts without leases. -/
theorem LeaseState.wf_start {netip : Ipv4} {mask : Nat} (hlow : 2 ≤ mask) (hhigh : mask ≤ 30)
    {s : LeaseState} (hs : (leaseMachine netip mask).start s) : s.Wf netip mask := by
  obtain ⟨hcreate, hleases⟩ := hs
  obtain ⟨dhcp, hdhcp, hd, -⟩ := dhcpCreate_spec netip hlow hhigh
  obtain rfl : s.dhcp = dhcp := Option.some.inj (hcreate.symm.trans hdhcp)
  exact ⟨hd, by simp [hleases], by simp [hleases], by simp [hleases], by simp [hleases]⟩

/-- An allocation keeps the leases, and adds one whose host was not held. -/
theorem LeaseState.Wf.allocate {netip : Ipv4} {mask : Nat} {s : LeaseState}
    (hs : s.Wf netip mask) (requestedIp : Ipv4) :
    (s.step (.allocate requestedIp)).Wf netip mask := by
  have hcase := dhcpAllocateIp_cases hs.dhcp requestedIp
  have hout := dhcpAllocateIp_handsOut hs.dhcp requestedIp
  simp only [LeaseState.step]
  generalize dhcpAllocateIp memory s.dhcp requestedIp = result at hcase hout ⊢
  obtain ⟨hwf, hgrows⟩ := hcase.grows hs.dhcp
  obtain ⟨hdepth, hhostOf⟩ := hcase.hostOf
  have hheld : ∀ lease ∈ s.leases, result.dhcp.Allocated (s.dhcp.hostOf lease) :=
    fun lease hmem => hgrows _ (hs.dhcp.hostOf_lt lease) (hs.held lease hmem)
  cases hip : result.allocatedIp with
  | none =>
      rw [Option.toList_none, List.append_nil]
      exact ⟨hwf, hs.inSubnet, hhostOf ▸ hheld, hhostOf ▸ hdepth ▸ hs.notReserved,
        hhostOf ▸ hs.nodup⟩
  | some ip =>
      obtain ⟨hsubnet, hfree, htaken⟩ : InSubnet netip mask ip ∧
          ¬ s.dhcp.Allocated (s.dhcp.hostOf ip) ∧ result.dhcp.Allocated (s.dhcp.hostOf ip) := by
        split at hout
        · obtain ⟨ip', hip', hfacts⟩ := hout
          obtain rfl : ip = ip' := Option.some.inj (hip.symm.trans hip')
          exact hfacts
        · rw [hip] at hout
          cases hout
      have hmem : ∀ {lease}, lease ∈ s.leases ++ (some ip).toList →
          lease ∈ s.leases ∨ lease = ip := by
        intro lease h
        simpa using h
      refine ⟨hwf, fun lease h => ?_, fun lease h => ?_, fun lease h => ?_, ?_⟩
      · rcases hmem h with hold | rfl
        · exact hs.inSubnet lease hold
        · exact hsubnet
      · rw [hhostOf]
        rcases hmem h with hold | rfl
        · exact hheld lease hold
        · exact htaken
      · rw [hhostOf, hdepth]
        rcases hmem h with hold | rfl
        · exact hs.notReserved lease hold
        · exact hs.dhcp.not_reserved hfree
      · rw [hhostOf, Option.toList_some, List.map_append, List.nodup_append]
        refine ⟨hs.nodup, List.nodup_singleton _, ?_⟩
        -- a lease with the host of `ip` would hold it already
        rintro h hold h' hnew rfl
        obtain ⟨lease, hlease, hhost⟩ := List.mem_map.mp hold
        obtain rfl : h = s.dhcp.hostOf ip := by simpa using hnew
        exact hfree (hhost ▸ hs.held lease hlease)

/-- A successful free ends the lease of the host that it gives back. -/
theorem LeaseState.step_free {netip : Ipv4} {mask : Nat} {s : LeaseState}
    (hd : s.dhcp.Wf netip mask) (ip : Ipv4) :
    s.step (.free ip) = s ∨
      (isReservedHost (s.dhcp.hostOf ip) s.dhcp.depth = false ∧
        s.dhcp.Allocated (s.dhcp.hostOf ip) ∧
        s.step (.free ip) = ⟨s.dhcp.giveBack (s.dhcp.hostOf ip),
          s.leases.filter fun lease => s.dhcp.hostOf lease ≠ s.dhcp.hostOf ip⟩) := by
  rcases dhcpFreeIp_cases hd ip with ⟨status, hstatus, hresult⟩ | ⟨hreserved, htaken, hresult⟩
  · apply Or.inl
    simp only [LeaseState.step, hresult, hstatus, if_false]
  · refine Or.inr ⟨hreserved, htaken, ?_⟩
    simp only [LeaseState.step, hresult, if_true]

/-- A free keeps the other leases. -/
theorem LeaseState.Wf.free {netip : Ipv4} {mask : Nat} {s : LeaseState}
    (hs : s.Wf netip mask) (ip : Ipv4) : (s.step (.free ip)).Wf netip mask := by
  rcases s.step_free hs.dhcp ip with hsame | ⟨hreserved, -, hstep⟩
  · rwa [hsame]
  · rw [hstep]
    have hlt := hs.dhcp.hostOf_lt ip
    have hmem : ∀ {lease}, lease ∈ s.leases.filter
        (fun lease => s.dhcp.hostOf lease ≠ s.dhcp.hostOf ip) →
        lease ∈ s.leases ∧ s.dhcp.hostOf lease ≠ s.dhcp.hostOf ip := by
      intro lease h
      simpa using h
    refine ⟨hs.dhcp.giveBack hlt hreserved, fun lease h => hs.inSubnet lease (hmem h).1,
      fun lease h => ?_, fun lease h => hs.notReserved lease (hmem h).1, ?_⟩
    · exact (allocated_giveBack hlt (hs.dhcp.hostOf_lt lease)).mpr
        ⟨(hmem h).2, hs.held lease (hmem h).1⟩
    · exact hs.nodup.sublist (List.filter_sublist.map _)

/-- Every call keeps the invariant. -/
theorem LeaseState.Wf.step {netip : Ipv4} {mask : Nat} {s : LeaseState}
    (hs : s.Wf netip mask) (a : LeaseAction) : (s.step a).Wf netip mask := by
  cases a with
  | allocate requestedIp => exact hs.allocate requestedIp
  | free ip => exact hs.free ip

/-- Every reachable state is well-formed. -/
theorem leaseMachine_wf {netip : Ipv4} {mask : Nat} (hlow : 2 ≤ mask) (hhigh : mask ≤ 30)
    {guard : LeaseState → LeaseAction → Prop} {s : LeaseState}
    (hs : (leaseMachine netip mask).ReachedBy guard s) : s.Wf netip mask := by
  refine hs.invariant (I := fun s => s.Wf netip mask)
    (fun t ht => LeaseState.wf_start hlow hhigh ht) fun t a t' ht _ hstep => ?_
  obtain rfl : t.step a = t' := Option.some.inj hstep
  exact ht.step a

/-- The three reserved hosts by their numbers. -/
theorem isReservedHost_eq_false {h depth : Nat} :
    isReservedHost h depth = false ↔ h ≠ 0 ∧ h ≠ 1 ∧ h ≠ 2 ^ depth - 1 := by
  simp only [isReservedHost, Bool.or_eq_false_iff, beq_eq_false_iff_ne, NETWORK_ADDRESS_HOST,
    GATEWAY_ADDRESS_HOST, Nat.one_shiftLeft, and_assoc]

/-- **No address is handed out twice**: in every reachable state an address that
`DHCPAllocateIP` hands out lies in the subnet, is none of the reserved ones, and is not
leased. -/
theorem dhcpAllocateIp_unleased {netip : Ipv4} {mask : Nat} (hlow : 2 ≤ mask)
    (hhigh : mask ≤ 30) {s : LeaseState} (hs : (leaseMachine netip mask).Reached s)
    {requestedIp : Ipv4}
    (hout : (dhcpAllocateIp memory s.dhcp requestedIp).status.handsOut) :
    ∃ ip, (dhcpAllocateIp memory s.dhcp requestedIp).allocatedIp = some ip ∧
      InSubnet netip mask ip ∧
      (extractHostFromIp ip mask ≠ 0 ∧ extractHostFromIp ip mask ≠ 1 ∧
        extractHostFromIp ip mask ≠ 2 ^ (IPv4_BITS - mask) - 1) ∧
      ip ∉ s.leases := by
  have hwf := leaseMachine_wf hlow hhigh hs
  have hcall := dhcpAllocateIp_handsOut hwf.dhcp requestedIp
  rw [if_pos hout] at hcall
  obtain ⟨ip, hip, hsubnet, hfree, -⟩ := hcall
  have hreserved := isReservedHost_eq_false.mp (hwf.dhcp.not_reserved hfree)
  rw [hwf.dhcp.hostOf_eq, hwf.dhcp.depth] at hreserved
  exact ⟨ip, hip, hsubnet, hreserved, fun hmem => hfree (hwf.held ip hmem)⟩

/-- The network of the samples, with five hosts for clients. -/
def sampleNet : Ipv4 := ⟨192, 168, 1, 0⟩

/-- The manager of the samples. -/
def sampleDhcp : Dhcp := (dhcpCreate memory sampleNet 29).getD ⟨.null, 0, 0⟩

/-- The samples start with `DHCPCreate`. -/
theorem sample_start : (leaseMachine sampleNet 29).start ⟨sampleDhcp, []⟩ :=
  ⟨by decide +kernel, rfl⟩

/-- A taken address is requested, and another one is handed out. -/
theorem dhcpAllocateIp_unleased_sample :
    ∃ s : LeaseState, (leaseMachine sampleNet 29).Reached s ∧
      s.leases = [⟨192, 168, 1, 4⟩] ∧
      ∃ ip, (dhcpAllocateIp memory s.dhcp ⟨192, 168, 1, 4⟩).allocatedIp = some ip ∧
        InSubnet sampleNet 29 ip ∧
        (extractHostFromIp ip 29 ≠ 0 ∧ extractHostFromIp ip 29 ≠ 1 ∧
          extractHostFromIp ip 29 ≠ 2 ^ (IPv4_BITS - 29) - 1) ∧
        ip ∉ s.leases := by
  have hrun : ((leaseMachine sampleNet 29).run ⟨sampleDhcp, []⟩
      [.allocate ⟨192, 168, 1, 4⟩]).map
      (fun s => (s.leases,
        (dhcpAllocateIp memory s.dhcp ⟨192, 168, 1, 4⟩).status)) =
      some ([⟨192, 168, 1, 4⟩], .IP_OCCUPIED_ALLOCATED_ANOTHER) := by
    decide +kernel
  obtain ⟨s, hreached, hfacts⟩ := Machine.Reached.run_map (.start sample_start) hrun
  obtain ⟨hleases, hstatus⟩ := Prod.mk.inj hfacts
  exact ⟨s, hreached, hleases,
    dhcpAllocateIp_unleased (by decide) (by decide) hreached (Or.inr hstatus)⟩

/-! ## Which hosts a call changes -/

/-- A call that hands out an address allocates its host and no other; any other
call changes none. -/
def ChangesOnlyReturned (dhcp : Dhcp) (result : Allocation) : Prop :=
  if result.status.handsOut then
    ∃ ip, result.allocatedIp = some ip ∧ ¬ dhcp.Allocated (dhcp.hostOf ip) ∧
      ∀ h < 2 ^ dhcp.depth,
        result.dhcp.Allocated h ↔ h = dhcp.hostOf ip ∨ dhcp.Allocated h
  else ∀ h < 2 ^ dhcp.depth, result.dhcp.Allocated h ↔ dhcp.Allocated h

/-- The search from the requested host comes to `x` if all hosts before it are
taken. -/
def SearchVisits (dhcp : Dhcp) (requested x : Nat) : Prop :=
  Visits dhcp.trie dhcp.depth dhcp.depth requested x

/-- A search ends at a host exactly if one of the hosts that it comes to is free. -/
theorem exists_finds_iff {dhcp : Dhcp} {requested : Nat} :
    (∃ x, Finds dhcp requested x) ↔ ∃ x, SearchVisits dhcp requested x ∧ ¬ dhcp.Allocated x :=
  exists_probes_iff

/-- The trie does not allocate another host in place of the requested one: no host is
requested, it is free, or every host that the search comes to is taken. -/
def NotRedirected (dhcp : Dhcp) (requestedIp : Ipv4) : Prop :=
  wantsAny dhcp requestedIp = true ∨ ¬ dhcp.Allocated (dhcp.hostOf requestedIp) ∨
    ∀ x, SearchVisits dhcp (dhcp.hostOf requestedIp) x → dhcp.Allocated x

/-- A request that is redirected was for a taken host, and the trie found another
one. -/
theorem not_notRedirected {dhcp : Dhcp} {requestedIp : Ipv4} {x : Nat}
    (hany : wantsAny dhcp requestedIp = false)
    (htaken : dhcp.Allocated (dhcp.hostOf requestedIp))
    (hx : Finds dhcp (dhcp.hostOf requestedIp) x) : ¬ NotRedirected dhcp requestedIp := by
  rintro (hwants | hfree | hall)
  · rw [hany] at hwants
    cases hwants
  · exact hfree htaken
  · obtain ⟨y, hy, hfree⟩ := exists_finds_iff.mp ⟨x, hx⟩
    exact hfree (hall y hy)

/-- A call that takes the host of the address that it returns changes only this
host. -/
theorem changesOnlyReturned_take {netip : Ipv4} {mask : Nat} {dhcp : Dhcp}
    (hd : dhcp.Wf netip mask) {x : Nat} (hx : x < 2 ^ dhcp.depth) (hfree : ¬ dhcp.Allocated x)
    {status : DhcpStatus} (hout : status.handsOut) :
    ChangesOnlyReturned dhcp ⟨dhcp.take x, status, some (buildFullIp dhcp.network x)⟩ := by
  have hhost := (buildFullIp_host hd hx).2
  rw [ChangesOnlyReturned, if_pos hout]
  refine ⟨_, rfl, ?_, fun h hh => ?_⟩
  · rwa [hhost]
  · rw [hhost]
    exact allocated_take hx hh

/-- Without an available address none is handed out. -/
theorem not_handsOut_noIpAvailable : ¬ DhcpStatus.NO_IP_AVAILABLE.handsOut := by
  decide

/-- **What a call changes**: it changes only the host that it returns exactly if it is
not redirected. -/
theorem changesOnlyReturned_iff {netip : Ipv4} {mask : Nat} {dhcp : Dhcp}
    (hd : dhcp.Wf netip mask) {requestedIp : Ipv4} {result : Allocation}
    (hcase : AllocationCase dhcp requestedIp result) :
    ChangesOnlyReturned dhcp result ↔ NotRedirected dhcp requestedIp := by
  have hnoChange : ∀ status : DhcpStatus, ¬ status.handsOut →
      ChangesOnlyReturned dhcp ⟨dhcp, status, none⟩ := by
    intro status hout
    rw [ChangesOnlyReturned, if_neg hout]
    exact fun _ _ => Iff.rfl
  cases hcase with
  | any hany hx =>
      obtain ⟨hlt, hfree⟩ := Finds.spec hx hd.first_lt
      exact iff_of_true (changesOnlyReturned_take hd hlt hfree (by decide)) (Or.inl hany)
  | anyFails hany _ => exact iff_of_true (hnoChange _ not_handsOut_noIpAvailable) (Or.inl hany)
  | granted _ hfree =>
      exact iff_of_true
        (changesOnlyReturned_take hd (hd.hostOf_lt requestedIp) hfree (by decide))
        (Or.inr (Or.inl hfree))
  | takenFails _ _ hnone =>
      refine iff_of_true (hnoChange _ not_handsOut_noIpAvailable)
        (Or.inr (Or.inr fun x hx => ?_))
      by_contra hfree
      obtain ⟨y, hy⟩ := exists_finds_iff.mpr ⟨x, hx, hfree⟩
      exact hnone y hy
  | @retried x y hany htaken hx hy =>
      refine iff_of_false (fun hchanges => ?_) (not_notRedirected hany htaken hx)
      obtain ⟨hlt, hfree⟩ := Finds.spec hx (hd.hostOf_lt requestedIp)
      obtain ⟨hlt', hfree'⟩ := Finds.spec hy (hd.take hlt).first_lt
      have hout : DhcpStatus.IP_OCCUPIED_ALLOCATED_ANOTHER.handsOut := Or.inr rfl
      rw [ChangesOnlyReturned, if_pos hout] at hchanges
      obtain ⟨ip, hip, -, honly⟩ := hchanges
      rw [← Option.some.inj hip, (buildFullIp_host hd hlt').2] at honly
      -- the first of the two hosts is allocated as well
      have htakenX : ((dhcp.take x).take y).Allocated x :=
        (allocated_take hlt' hlt).mpr (Or.inr ((allocated_take hlt hlt).mpr (Or.inl rfl)))
      rcases (honly x hlt).mp htakenX with rfl | hold
      · exact hfree' ((allocated_take hlt hlt).mpr (Or.inl rfl))
      · exact hfree hold
  | @retryFails x hany htaken hx _ =>
      refine iff_of_false (fun hchanges => ?_) (not_notRedirected hany htaken hx)
      obtain ⟨hlt, hfree⟩ := Finds.spec hx (hd.hostOf_lt requestedIp)
      rw [ChangesOnlyReturned, if_neg not_handsOut_noIpAvailable] at hchanges
      exact hfree ((hchanges x hlt).mp ((allocated_take hlt hlt).mpr (Or.inl rfl)))

/-! ## Counting the hosts -/

/-- The allocated hosts. -/
def Dhcp.heldHosts (dhcp : Dhcp) : Finset Nat :=
  (Finset.range (2 ^ dhcp.depth)).filter fun h => dhcp.Allocated h

/-- Every allocated host is reserved or leased. -/
def LeaseState.Accounted (s : LeaseState) : Prop :=
  ∀ h < 2 ^ s.dhcp.depth, s.dhcp.Allocated h →
    isReservedHost h s.dhcp.depth = true ∨ h ∈ s.leases.map s.dhcp.hostOf

/-- In a state that accounts for all hosts their number is that of the leases and the
reserved hosts. -/
theorem LeaseState.Accounted.card {netip : Ipv4} {mask : Nat} {s : LeaseState}
    (hs : s.Wf netip mask) (haccounted : s.Accounted) :
    s.dhcp.heldHosts.card = 3 + s.leases.length := by
  have hfour := hs.dhcp.four_le
  have hreserved : ∀ h, h ∈ [0, 1, 2 ^ s.dhcp.depth - 1] ↔
      isReservedHost h s.dhcp.depth = true := by
    intro h
    rw [← Bool.not_eq_false, isReservedHost_eq_false]
    simp only [List.mem_cons, List.not_mem_nil, or_false]
    tauto
  have hnodup : ([0, 1, 2 ^ s.dhcp.depth - 1] ++ s.leases.map s.dhcp.hostOf).Nodup := by
    rw [List.nodup_append]
    refine ⟨?_, hs.nodup, ?_⟩
    · have hone : 1 ≠ 2 ^ s.dhcp.depth - 1 := by omega
      have hzero : 0 ≠ 2 ^ s.dhcp.depth - 1 := by omega
      simp [hone, hzero]
    · rintro h hh h' hh' rfl
      obtain ⟨lease, hlease, rfl⟩ := List.mem_map.mp hh'
      have hfree := hs.notReserved lease hlease
      rw [(hreserved _).mp hh] at hfree
      cases hfree
  -- the held hosts are the reserved ones and those of the leases
  have hheld : s.dhcp.heldHosts =
      ([0, 1, 2 ^ s.dhcp.depth - 1] ++ s.leases.map s.dhcp.hostOf).toFinset := by
    ext h
    rw [Dhcp.heldHosts, Finset.mem_filter, Finset.mem_range, List.mem_toFinset,
      List.mem_append, hreserved]
    constructor
    · rintro ⟨hlt, htaken⟩
      exact haccounted h hlt htaken
    · rintro (hres | hleased)
      · exact ⟨isReservedHost_lt hfour hres, hs.dhcp.reserved h hres⟩
      · obtain ⟨lease, hlease, rfl⟩ := List.mem_map.mp hleased
        exact ⟨hs.dhcp.hostOf_lt lease, hs.held lease hlease⟩
  rw [hheld, List.toFinset_card_of_nodup hnodup, List.length_append, List.length_map]
  rfl

/-- Allocations are not redirected by the trie. -/
def Unredirected (s : LeaseState) : LeaseAction → Prop
  | .allocate requestedIp => NotRedirected s.dhcp requestedIp
  | .free _ => True

/-- An allocation that is not redirected accounts for the host that it takes. -/
theorem LeaseState.Accounted.allocate {netip : Ipv4} {mask : Nat} {s : LeaseState}
    (hs : s.Wf netip mask) (haccounted : s.Accounted) {requestedIp : Ipv4}
    (hguard : NotRedirected s.dhcp requestedIp) :
    (s.step (.allocate requestedIp)).Accounted := by
  have hcase := dhcpAllocateIp_cases hs.dhcp requestedIp
  have hout := hcase.handsOut hs.dhcp
  have hchanges := (changesOnlyReturned_iff hs.dhcp hcase).mpr hguard
  intro h hh htaken
  simp only [LeaseState.step] at hh htaken ⊢
  generalize dhcpAllocateIp memory s.dhcp requestedIp = result
    at hcase hout hchanges hh htaken ⊢
  obtain ⟨hdepth, hhostOf⟩ := hcase.hostOf
  rw [hdepth] at hh ⊢
  rw [hhostOf, List.map_append]
  rw [ChangesOnlyReturned] at hchanges
  split at hchanges
  · obtain ⟨ip, hip, -, honly⟩ := hchanges
    rcases (honly h hh).mp htaken with rfl | hold
    · right
      rw [hip]
      exact List.mem_append_right _ (List.mem_singleton.mpr rfl)
    · exact (haccounted h hh hold).imp_right (List.mem_append_left _)
  · exact (haccounted h hh ((hchanges h hh).mp htaken)).imp_right (List.mem_append_left _)

/-- A free gives back one host and ends its lease. -/
theorem LeaseState.Accounted.free {netip : Ipv4} {mask : Nat} {s : LeaseState}
    (hs : s.Wf netip mask) (haccounted : s.Accounted) (ip : Ipv4) :
    (s.step (.free ip)).Accounted := by
  rcases s.step_free hs.dhcp ip with hsame | ⟨-, -, hstep⟩
  · rwa [hsame]
  · rw [hstep]
    intro h hh htaken
    obtain ⟨hne, hold⟩ := (allocated_giveBack (hs.dhcp.hostOf_lt ip) hh).mp htaken
    apply (haccounted h hh hold).imp_right
    intro hleased
    obtain ⟨lease, hlease, rfl⟩ := List.mem_map.mp hleased
    exact List.mem_map.mpr ⟨lease, List.mem_filter.mpr ⟨hlease, by simpa using hne⟩, rfl⟩

/-- In a run without redirected allocations every allocated host is accounted for. -/
theorem leaseMachine_accounted {netip : Ipv4} {mask : Nat} (hlow : 2 ≤ mask)
    (hhigh : mask ≤ 30) {s : LeaseState}
    (hs : (leaseMachine netip mask).ReachedBy Unredirected s) :
    s.Wf netip mask ∧ s.Accounted := by
  refine hs.invariant (I := fun s => s.Wf netip mask ∧ s.Accounted) (fun t ht => ?_)
    fun t a t' ht hguard hstep => ?_
  · refine ⟨LeaseState.wf_start hlow hhigh ht, fun h hh htaken => Or.inl ?_⟩
    obtain ⟨dhcp, hdhcp, -, hholds⟩ := dhcpCreate_spec netip hlow hhigh
    obtain rfl : t.dhcp = dhcp := Option.some.inj (ht.1.symm.trans hdhcp)
    exact (hholds h hh).mp htaken
  · obtain rfl : t.step a = t' := Option.some.inj hstep
    obtain ⟨hwf, haccounted⟩ := ht
    refine ⟨hwf.step a, ?_⟩
    cases a with
    | allocate requestedIp => exact haccounted.allocate hwf hguard
    | free ip => exact haccounted.free hwf ip

/-- **No host leaks unless the trie redirects a request**: a call changes only the host
that it returns exactly if it is not redirected, and in a run without redirected calls
the allocated hosts are the reserved ones and the leased ones. -/
theorem dhcpAllocateIp_noLeak {netip : Ipv4} {mask : Nat} (hlow : 2 ≤ mask)
    (hhigh : mask ≤ 30) :
    (∀ s, (leaseMachine netip mask).Reached s → ∀ requestedIp,
      (ChangesOnlyReturned s.dhcp (dhcpAllocateIp memory s.dhcp requestedIp) ↔
        NotRedirected s.dhcp requestedIp)) ∧
    ∀ s, (leaseMachine netip mask).ReachedBy Unredirected s →
      s.dhcp.heldHosts.card = 3 + s.leases.length := by
  constructor
  · intro s hs requestedIp
    have hwf := leaseMachine_wf hlow hhigh hs
    exact changesOnlyReturned_iff hwf.dhcp (dhcpAllocateIp_cases hwf.dhcp requestedIp)
  · intro s hs
    obtain ⟨hwf, haccounted⟩ := leaseMachine_accounted hlow hhigh hs
    exact haccounted.card hwf

/-- Two calls that are not redirected leave five hosts allocated. -/
theorem dhcpAllocateIp_noLeak_sample :
    ∃ s : LeaseState, (leaseMachine sampleNet 29).ReachedBy Unredirected s ∧
      s.leases = [⟨192, 168, 1, 4⟩, ⟨192, 168, 1, 2⟩] ∧
      s.dhcp.heldHosts.card = 3 + s.leases.length := by
  let labels : List LeaseAction := [.allocate ⟨192, 168, 1, 4⟩, .allocate zeroIp]
  have hrun : ((leaseMachine sampleNet 29).run ⟨sampleDhcp, []⟩ labels).map
      (fun s => s.leases) = some [⟨192, 168, 1, 4⟩, ⟨192, 168, 1, 2⟩] := by
    decide +kernel
  have hadmits : (leaseMachine sampleNet 29).Admits Unredirected ⟨sampleDhcp, []⟩ labels :=
    ⟨Or.inr (Or.inl (by decide +kernel)), Or.inl rfl, trivial⟩
  obtain ⟨s, hreached, hleases⟩ := Machine.ReachedBy.run_map (.start sample_start) hadmits hrun
  exact ⟨s, hreached, hleases,
    (dhcpAllocateIp_noLeak (by decide) (by decide)).2 s hreached⟩

/-- The second request for one address is answered that none is available, although the
trie has allocated another host for it. -/
theorem dhcpAllocateIp_leaks_retry :
    ¬ ∀ (netip : Ipv4) (mask : Nat), 2 ≤ mask → mask ≤ 30 →
      ∀ s, (leaseMachine netip mask).Reached s →
        (∀ requestedIp,
          ChangesOnlyReturned s.dhcp (dhcpAllocateIp memory s.dhcp requestedIp)) ∧
        s.dhcp.heldHosts.card = 3 + s.leases.length := by
  intro hclaim
  have hrun : ((leaseMachine sampleNet 29).run ⟨sampleDhcp, []⟩
      [.allocate ⟨192, 168, 1, 2⟩, .allocate ⟨192, 168, 1, 2⟩]).map
      (fun s => (s.leases.length, s.dhcp.heldHosts.card)) = some (1, 5) := by
    decide +kernel
  obtain ⟨s, hreached, hfacts⟩ := Machine.Reached.run_map (.start sample_start) hrun
  obtain ⟨hleases, hheld⟩ := Prod.mk.inj hfacts
  have hcount := (hclaim sampleNet 29 (by decide) (by decide) s
    hreached).2
  rw [hleases, hheld] at hcount
  cases hcount

/-! ## When a pool looks exhausted -/

/-- Every host that is not reserved is allocated. -/
def Dhcp.Full (dhcp : Dhcp) : Prop :=
  ∀ h < 2 ^ dhcp.depth, isReservedHost h dhcp.depth = false → dhcp.Allocated h

/-- The search from the first allocatable host comes to a free one. -/
def Dhcp.VisitsFree (dhcp : Dhcp) : Prop :=
  ∃ x, SearchVisits dhcp FIRST_ALLOCATABLE_HOST x ∧ ¬ dhcp.Allocated x

/-- The request is for a free host, or each search that it leads to comes to one. -/
def Serves (dhcp : Dhcp) (requestedIp : Ipv4) : Prop :=
  if wantsAny dhcp requestedIp = true then dhcp.VisitsFree
  else
    ¬ dhcp.Allocated (dhcp.hostOf requestedIp) ∨
      ∃ x, Finds dhcp (dhcp.hostOf requestedIp) x ∧ (dhcp.take x).VisitsFree

/-- The search from a requested host ends at one host. -/
theorem Finds.unique {dhcp : Dhcp} {requested x y : Nat} (hx : Finds dhcp requested x)
    (hy : Finds dhcp requested y) : x = y :=
  Probes.unique hx hy

/-- A request for any address is served from the first allocatable host. -/
theorem serves_any {dhcp : Dhcp} {requestedIp : Ipv4}
    (hany : wantsAny dhcp requestedIp = true) :
    Serves dhcp requestedIp ↔ dhcp.VisitsFree := by
  rw [Serves, if_pos hany]

/-- A request for a host is served at once, or by two searches. -/
theorem serves_host {dhcp : Dhcp} {requestedIp : Ipv4}
    (hany : wantsAny dhcp requestedIp = false) :
    Serves dhcp requestedIp ↔ ¬ dhcp.Allocated (dhcp.hostOf requestedIp) ∨
      ∃ x, Finds dhcp (dhcp.hostOf requestedIp) x ∧ (dhcp.take x).VisitsFree := by
  rw [Serves, hany, if_neg (by simp)]

/-- A call answers that no address is available exactly if a search gives up. -/
theorem noIpAvailable_iff {dhcp : Dhcp} {requestedIp : Ipv4} {result : Allocation}
    (hcase : AllocationCase dhcp requestedIp result) :
    result.status = .NO_IP_AVAILABLE ↔ ¬ Serves dhcp requestedIp := by
  cases hcase with
  | any hany hx =>
      rw [serves_any hany]
      exact iff_of_false (by simp) (not_not.mpr (exists_finds_iff.mp ⟨_, hx⟩))
  | anyFails hany hnone =>
      rw [serves_any hany]
      apply iff_of_true rfl
      intro hfree
      obtain ⟨x, hx⟩ := exists_finds_iff.mpr hfree
      exact hnone x hx
  | granted hany hfree =>
      rw [serves_host hany]
      exact iff_of_false (by simp) (not_not.mpr (Or.inl hfree))
  | takenFails hany htaken hnone =>
      rw [serves_host hany]
      apply iff_of_true rfl
      rintro (hfree | ⟨x, hx, -⟩)
      · exact hfree htaken
      · exact hnone x hx
  | retried hany htaken hx hy =>
      rw [serves_host hany]
      have hretry := exists_finds_iff.mp ⟨_, hy⟩
      exact iff_of_false (by simp) (not_not.mpr (Or.inr ⟨_, hx, hretry⟩))
  | retryFails hany htaken hx hnone =>
      rw [serves_host hany]
      apply iff_of_true rfl
      rintro (hfree | ⟨x', hx', hretry⟩)
      · exact hfree htaken
      · -- the first search ends at one host, so the retry is the one that failed
        obtain rfl := hx.unique hx'
        obtain ⟨y, hy⟩ := exists_finds_iff.mpr hretry
        exact hnone y hy

/-- **When the pool is exhausted**: a call answers that no address is available only if
every host is allocated, exactly where every host is or the searches of the call come to
a free one. -/
theorem dhcpAllocateIp_complete {netip : Ipv4} {mask : Nat} (hlow : 2 ≤ mask)
    (hhigh : mask ≤ 30) {s : LeaseState} (hs : (leaseMachine netip mask).Reached s)
    (requestedIp : Ipv4) :
    ((dhcpAllocateIp memory s.dhcp requestedIp).status = .NO_IP_AVAILABLE → s.dhcp.Full) ↔
      s.dhcp.Full ∨ Serves s.dhcp requestedIp := by
  have hwf := leaseMachine_wf hlow hhigh hs
  rw [noIpAvailable_iff (dhcpAllocateIp_cases hwf.dhcp requestedIp)]
  constructor
  · intro hfull
    by_cases hserves : Serves s.dhcp requestedIp
    · exact Or.inr hserves
    · exact Or.inl (hfull hserves)
  · rintro (hfull | hserves) hnot
    · exact hfull
    · exact absurd hserves hnot

/-- The first request without an address is served. -/
theorem dhcpAllocateIp_complete_sample :
    ((dhcpAllocateIp memory sampleDhcp zeroIp).status = .NO_IP_AVAILABLE →
        sampleDhcp.Full) ↔
      sampleDhcp.Full ∨ Serves sampleDhcp zeroIp := by
  have hreached : (leaseMachine sampleNet 29).Reached ⟨sampleDhcp, []⟩ :=
    .start sample_start
  exact dhcpAllocateIp_complete (by decide) (by decide) hreached zeroIp

/-- The third request without an address is answered that none is available, although
three hosts of the subnet are free. -/
theorem dhcpAllocateIp_exhausted_early :
    ¬ ∀ (netip : Ipv4) (mask : Nat), 2 ≤ mask → mask ≤ 30 →
      ∀ s, (leaseMachine netip mask).Reached s → ∀ requestedIp,
        (dhcpAllocateIp memory s.dhcp requestedIp).status = .NO_IP_AVAILABLE →
          s.dhcp.Full := by
  intro hclaim
  have hrun : ((leaseMachine sampleNet 29).run ⟨sampleDhcp, []⟩
      [.allocate zeroIp, .allocate zeroIp]).map
      (fun s => ((dhcpAllocateIp memory s.dhcp zeroIp).status, s.dhcp.depth,
        decide (s.dhcp.Allocated 3))) = some (.NO_IP_AVAILABLE, 3, false) := by
    decide +kernel
  obtain ⟨s, hreached, hfacts⟩ := Machine.Reached.run_map (.start sample_start) hrun
  simp only [Prod.mk.injEq, decide_eq_false_iff_not] at hfacts
  obtain ⟨hstatus, hdepth, hfree⟩ := hfacts
  have hfull := hclaim sampleNet 29 (by decide) (by decide) s
    hreached zeroIp hstatus
  refine hfree (hfull 3 ?_ ?_)
  · rw [hdepth]
    decide
  · rw [hdepth]
    decide

end Dhcp
end InfinityLabs
