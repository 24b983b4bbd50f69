import InfinityLabs.Dhcp.Dhcp

/-!
# What an allocation does

With memory, a call of `DHCPAllocateIP` occupies the hosts that the probes of the
trie end at.  `AllocationCase` lists its cases: a request without an address or
for a reserved one probes from the first allocatable host; a free request is
granted; and a taken request is probed twice, by the trie and by
`AllocateNextAvailable` again.
-/

namespace InfinityLabs
namespace Dhcp

open Lib

/-- Every call of `malloc` succeeds. -/
def memory : Nat → Nat → Bool := fun _ _ => true

/-! ## Addresses of a subnet -/

/-- The address carries the network bits of `netip`. -/
def InSubnet (netip : Ipv4) (mask : Nat) (ip : Ipv4) : Prop :=
  ip.toUInt >>> (IPv4_BITS - mask) = netip.toUInt >>> (IPv4_BITS - mask)

instance (netip : Ipv4) (mask : Nat) (ip : Ipv4) : Decidable (InSubnet netip mask ip) :=
  inferInstanceAs (Decidable (_ = _))

section Subnet

variable {netip : Ipv4} {mask : Nat} (hlow : 2 ≤ mask) (hhigh : mask ≤ 30)

include hlow hhigh

/-- The full number of a host. -/
theorem toUInt_buildFullIp_subnet {host : Nat} (hhost : host < 2 ^ (IPv4_BITS - mask)) :
    (buildFullIp (convertSubnetToUInt netip mask) host).toUInt =
      netip.toUInt >>> (IPv4_BITS - mask) * 2 ^ (IPv4_BITS - mask) + host := by
  have hmask : mask ≠ 0 := by omega
  have hnetwork := convertSubnetToUInt_eq netip hmask
  have hor : convertSubnetToUInt netip mask ||| host =
      netip.toUInt >>> (IPv4_BITS - mask) * 2 ^ (IPv4_BITS - mask) + host := by
    rw [hnetwork, ← Nat.shiftLeft_add_eq_or_of_lt hhost, Nat.shiftLeft_eq]
  have hfits : netip.toUInt >>> (IPv4_BITS - mask) * 2 ^ (IPv4_BITS - mask) + host <
      2 ^ IPv4_BITS := by
    have hsplit : 2 ^ IPv4_BITS = 2 ^ mask * 2 ^ (IPv4_BITS - mask) := by
      rw [← Nat.pow_add]
      congr 1
      rw [IPv4_BITS]
      omega
    have hnet : netip.toUInt >>> (IPv4_BITS - mask) < 2 ^ mask := by
      rw [Nat.shiftRight_eq_div_pow]
      apply Nat.div_lt_of_lt_mul
      rw [Nat.mul_comm, ← hsplit]
      exact toUInt_lt netip
    calc netip.toUInt >>> (IPv4_BITS - mask) * 2 ^ (IPv4_BITS - mask) + host
        < netip.toUInt >>> (IPv4_BITS - mask) * 2 ^ (IPv4_BITS - mask) +
            2 ^ (IPv4_BITS - mask) := Nat.add_lt_add_left hhost _
      _ = (netip.toUInt >>> (IPv4_BITS - mask) + 1) * 2 ^ (IPv4_BITS - mask) := by
          rw [Nat.add_mul, Nat.one_mul]
      _ ≤ 2 ^ mask * 2 ^ (IPv4_BITS - mask) :=
          Nat.mul_le_mul_right _ (Nat.succ_le_of_lt hnet)
      _ = 2 ^ IPv4_BITS := hsplit.symm
  rw [toUInt_buildFullIp (hor ▸ hfits), hor]

/-- A built address lies in the subnet and has the host that it was built from. -/
theorem buildFullIp_spec {host : Nat} (hhost : host < 2 ^ (IPv4_BITS - mask)) :
    InSubnet netip mask (buildFullIp (convertSubnetToUInt netip mask) host) ∧
      extractHostFromIp (buildFullIp (convertSubnetToUInt netip mask) host) mask = host := by
  have hle : mask ≤ IPv4_BITS := by
    rw [IPv4_BITS]
    omega
  have hnumber : (buildFullIp (convertSubnetToUInt netip mask) host).toUInt =
      netip.toUInt >>> (IPv4_BITS - mask) * 2 ^ (IPv4_BITS - mask) + host :=
    toUInt_buildFullIp_subnet hlow hhigh hhost
  have hpos := Nat.two_pow_pos (IPv4_BITS - mask)
  constructor
  · rw [InSubnet, hnumber, Nat.shiftRight_eq_div_pow, Nat.mul_comm,
      Nat.mul_add_div hpos, Nat.div_eq_of_lt hhost, Nat.add_zero]
  · rw [extractHostFromIp_eq _ (by omega) hle, hnumber, Nat.mul_comm, Nat.mul_add_mod,
      Nat.mod_eq_of_lt hhost]

/-- In a subnet an address is told by its host. -/
theorem eq_of_inSubnet {ip ip' : Ipv4} (hip : InSubnet netip mask ip)
    (hip' : InSubnet netip mask ip')
    (hhost : extractHostFromIp ip mask = extractHostFromIp ip' mask) : ip = ip' := by
  have hle : mask ≤ IPv4_BITS := by
    rw [IPv4_BITS]
    omega
  have hnet := hip.trans hip'.symm
  rw [extractHostFromIp_eq ip (by omega) hle, extractHostFromIp_eq ip' (by omega) hle] at hhost
  rw [Nat.shiftRight_eq_div_pow, Nat.shiftRight_eq_div_pow] at hnet
  apply toUInt_inj
  rw [← Nat.div_add_mod ip.toUInt (2 ^ (IPv4_BITS - mask)), hnet, hhost, Nat.div_add_mod]

end Subnet

/-! ## Well-formed managers -/

/-- The host is allocated in the trie. -/
def Dhcp.Allocated (dhcp : Dhcp) (h : Nat) : Prop :=
  Holds dhcp.trie dhcp.depth h

instance (dhcp : Dhcp) (h : Nat) : Decidable (dhcp.Allocated h) :=
  inferInstanceAs (Decidable (Holds _ _ _))

/-- A manager of a subnet: a well-formed trie that holds the reserved hosts. -/
structure Dhcp.Wf (netip : Ipv4) (mask : Nat) (dhcp : Dhcp) : Prop where
  low : 2 ≤ mask
  high : mask ≤ 30
  depth : dhcp.depth = IPv4_BITS - mask
  network : dhcp.network = convertSubnetToUInt netip mask
  trie : dhcp.trie.Wf dhcp.depth
  node : dhcp.trie.isNull = false
  reserved : ∀ h, isReservedHost h dhcp.depth = true → dhcp.Allocated h

namespace Dhcp.Wf

variable {netip : Ipv4} {mask : Nat} {dhcp : Dhcp}

/-- Counting back from the depth gives the mask. -/
theorem sub_depth (hd : dhcp.Wf netip mask) : IPv4_BITS - dhcp.depth = mask := by
  have hlow := hd.low
  have hhigh := hd.high
  rw [hd.depth, IPv4_BITS]
  omega

/-- A subnet has room for the first allocatable host. -/
theorem four_le (hd : dhcp.Wf netip mask) : 4 ≤ 2 ^ dhcp.depth := by
  have hdepth : 2 ≤ dhcp.depth := by
    have hhigh := hd.high
    rw [hd.depth, IPv4_BITS]
    omega
  exact Nat.pow_le_pow_right Nat.two_pos hdepth

/-- A manager extracts hosts with its mask. -/
theorem hostOf_eq (hd : dhcp.Wf netip mask) (ip : Ipv4) :
    dhcp.hostOf ip = extractHostFromIp ip mask := by
  rw [Dhcp.hostOf, hd.sub_depth]

/-- The host of any address is a value of the trie. -/
theorem hostOf_lt (hd : dhcp.Wf netip mask) (ip : Ipv4) :
    dhcp.hostOf ip < 2 ^ dhcp.depth := by
  have hlow := hd.low
  have hhigh := hd.high
  rw [hd.hostOf_eq, hd.depth]
  apply extractHostFromIp_lt ip (by omega)
  rw [IPv4_BITS]
  omega

/-- A host that the trie does not hold is not reserved. -/
theorem not_reserved (hd : dhcp.Wf netip mask) {h : Nat}
    (hfree : ¬ dhcp.Allocated h) : isReservedHost h dhcp.depth = false :=
  Bool.eq_false_of_not_eq_true fun hreserved => hfree (hd.reserved h hreserved)

end Dhcp.Wf

/-- The manager with one more host occupied. -/
def Dhcp.take (dhcp : Dhcp) (x : Nat) : Dhcp :=
  { dhcp with trie := occupy dhcp.depth x dhcp.trie }

/-- The allocated hosts once one more is taken. -/
theorem allocated_take {dhcp : Dhcp} {x h : Nat} (hx : x < 2 ^ dhcp.depth)
    (hh : h < 2 ^ dhcp.depth) : (dhcp.take x).Allocated h ↔ h = x ∨ dhcp.Allocated h :=
  holds_occupy hx hh dhcp.trie

/-- The manager with one host released. -/
def Dhcp.giveBack (dhcp : Dhcp) (x : Nat) : Dhcp :=
  { dhcp with trie := release dhcp.depth x dhcp.trie }

/-- The allocated hosts once one is given back. -/
theorem allocated_giveBack {dhcp : Dhcp} {x h : Nat} (hx : x < 2 ^ dhcp.depth)
    (hh : h < 2 ^ dhcp.depth) :
    (dhcp.giveBack x).Allocated h ↔ h ≠ x ∧ dhcp.Allocated h :=
  holds_release hx hh dhcp.trie

/-- A reserved host is a value of the trie. -/
theorem isReservedHost_lt {h depth : Nat} (hfour : 4 ≤ 2 ^ depth)
    (h' : isReservedHost h depth = true) : h < 2 ^ depth := by
  simp only [isReservedHost, Bool.or_eq_true, beq_iff_eq, NETWORK_ADDRESS_HOST,
    GATEWAY_ADDRESS_HOST, Nat.one_shiftLeft] at h'
  omega

/-- Taking a host keeps the manager well-formed. -/
theorem Dhcp.Wf.take {netip : Ipv4} {mask : Nat} {dhcp : Dhcp} (hd : dhcp.Wf netip mask)
    {x : Nat} (hx : x < 2 ^ dhcp.depth) : (dhcp.take x).Wf netip mask where
  low := hd.low
  high := hd.high
  depth := hd.depth
  network := hd.network
  trie := occupy_wf x hd.trie
  node := isNull_occupy _ _ _
  reserved h hreserved :=
    (allocated_take hx (isReservedHost_lt hd.four_le hreserved)).mpr
      (Or.inr (hd.reserved h hreserved))

/-- Giving back a host that is not reserved keeps the manager well-formed. -/
theorem Dhcp.Wf.giveBack {netip : Ipv4} {mask : Nat} {dhcp : Dhcp} (hd : dhcp.Wf netip mask)
    {x : Nat} (hx : x < 2 ^ dhcp.depth) (hfree : isReservedHost x dhcp.depth = false) :
    (dhcp.giveBack x).Wf netip mask where
  low := hd.low
  high := hd.high
  depth := hd.depth
  network := hd.network
  trie := release_wf x hd.trie
  node := (isNull_release _ _ _).trans hd.node
  reserved h hreserved := by
    refine (allocated_giveBack hx (isReservedHost_lt hd.four_le hreserved)).mpr
      ⟨?_, hd.reserved h hreserved⟩
    rintro rfl
    change isReservedHost h dhcp.depth = true at hreserved
    rw [hfree] at hreserved
    cases hreserved

/-! ## Creation -/

/-- An insertion of a free host takes it. -/
theorem trieInsert_of_free {malloc : Nat → Bool} (hmalloc : ∀ b, malloc b = true) {t : Trie}
    {d h : Nat} (ht : t.Wf d) (hnode : t.isNull = false) (hfree : ¬ Holds t d h) :
    trieInsert malloc t h d = ⟨occupy d h t, .TRIE_SUCCESS, some h⟩ := by
  rcases trieInsert_spec hmalloc ht hnode h with ⟨x, hx, hresult⟩ | ⟨hnone, -⟩
  · obtain rfl := hx.eq_of_free hfree
    rw [hresult, insertStatus, if_pos rfl]
  · exact absurd (.free hfree) (hnone h)

/-- A new trie holds nothing. -/
theorem not_holds_empty {d : Nat} (hd : d ≠ 0) (h : Nat) : ¬ Holds Trie.empty d h := by
  cases d with
  | zero => exact absurd rfl hd
  | succ d =>
      have hchild : Trie.empty.child (h.testBit d) = .null := by
        cases h.testBit d <;> rfl
      rw [Holds, pathOf, Trie.deref, hchild, Trie.deref_null]
      simp [Trie.isLeaf]

/-- **With memory, `DHCPCreate` reserves three hosts** and nothing else. -/
theorem dhcpCreate_spec (netip : Ipv4) {mask : Nat} (hlow : 2 ≤ mask) (hhigh : mask ≤ 30) :
    ∃ dhcp, dhcpCreate memory netip mask = some dhcp ∧ dhcp.Wf netip mask ∧
      ∀ h < 2 ^ dhcp.depth, dhcp.Allocated h ↔ isReservedHost h dhcp.depth = true := by
  have hmalloc : ∀ k b, memory k b = true := fun _ _ => rfl
  generalize hdepth : IPv4_BITS - mask = d
  have hd : 2 ≤ d := by
    rw [← hdepth, IPv4_BITS]
    omega
  have hfour : 4 ≤ 2 ^ d := Nat.pow_le_pow_right Nat.two_pos hd
  have h0 : (0 : Nat) < 2 ^ d := by omega
  have h1 : 1 < 2 ^ d := by omega
  have h2 : 2 ^ d - 1 < 2 ^ d := by omega
  have hempty : Trie.empty.Wf d := Trie.wf_empty d
  have hnone := not_holds_empty (d := d) (by omega)
  -- the three insertions find their hosts free
  have hfirst := trieInsert_of_free (hmalloc 2) hempty rfl (hnone 0)
  have hwf1 := occupy_wf 0 hempty
  have hfree1 : ¬ Holds (occupy d 0 .empty) d 1 := by
    rw [holds_occupy h0 h1]
    rintro (h | h)
    · cases h
    · exact hnone 1 h
  have hsecond := trieInsert_of_free (hmalloc 3) hwf1 (isNull_occupy d 0 .empty) hfree1
  have hwf2 := occupy_wf 1 hwf1
  have hfree2 : ¬ Holds (occupy d 1 (occupy d 0 .empty)) d (2 ^ d - 1) := by
    rw [holds_occupy h1 h2, holds_occupy h0 h2]
    rintro (h | h | h)
    · omega
    · omega
    · exact hnone _ h
  have hthird := trieInsert_of_free (hmalloc 4) hwf2 (isNull_occupy d 1 _) hfree2
  have hholds : ∀ h < 2 ^ d,
      Holds (occupy d (2 ^ d - 1) (occupy d 1 (occupy d 0 .empty))) d h ↔
        isReservedHost h d = true := by
    intro h hh
    rw [holds_occupy h2 hh, holds_occupy h1 hh, holds_occupy h0 hh]
    simp only [isReservedHost, Bool.or_eq_true, beq_iff_eq, NETWORK_ADDRESS_HOST,
      GATEWAY_ADDRESS_HOST, Nat.one_shiftLeft, hnone h, or_false]
    omega
  refine ⟨⟨occupy d (2 ^ d - 1) (occupy d 1 (occupy d 0 .empty)),
    convertSubnetToUInt netip mask, d⟩, ?_, ?_, hholds⟩
  · simp only [dhcpCreate, hdepth, NETWORK_ADDRESS_HOST, GATEWAY_ADDRESS_HOST,
      Nat.one_shiftLeft, hfirst, hsecond, hthird]
    simp [memory]
  · exact ⟨hlow, hhigh, hdepth.symm, rfl, occupy_wf _ hwf2, isNull_occupy _ _ _,
      fun h hreserved => (hholds h (isReservedHost_lt hfour hreserved)).mpr hreserved⟩

/-! ## Allocation -/

/-- The search for a host from the requested value, or from any other, ends at `x`. -/
def Finds (dhcp : Dhcp) (requested x : Nat) : Prop :=
  Probes dhcp.trie dhcp.depth dhcp.depth requested x

/-- What a call of `DHCPAllocateIP` can do. -/
inductive AllocationCase (dhcp : Dhcp) (requestedIp : Ipv4) : Allocation → Prop
  | any {x : Nat} (hany : wantsAny dhcp requestedIp = true)
      (hx : Finds dhcp FIRST_ALLOCATABLE_HOST x) :
      AllocationCase dhcp requestedIp
        ⟨dhcp.take x, .IP_OCCUPIED_ALLOCATED_ANOTHER, some (buildFullIp dhcp.network x)⟩
  | anyFails (hany : wantsAny dhcp requestedIp = true)
      (hnone : ∀ x, ¬ Finds dhcp FIRST_ALLOCATABLE_HOST x) :
      AllocationCase dhcp requestedIp ⟨dhcp, .NO_IP_AVAILABLE, none⟩
  | granted (hany : wantsAny dhcp requestedIp = false)
      (hfree : ¬ dhcp.Allocated (dhcp.hostOf requestedIp)) :
      AllocationCase dhcp requestedIp
        ⟨dhcp.take (dhcp.hostOf requestedIp), .SUCCESS,
          some (buildFullIp dhcp.network (dhcp.hostOf requestedIp))⟩
  | takenFails (hany : wantsAny dhcp requestedIp = false)
      (htaken : dhcp.Allocated (dhcp.hostOf requestedIp))
      (hnone : ∀ x, ¬ Finds dhcp (dhcp.hostOf requestedIp) x) :
      AllocationCase dhcp requestedIp ⟨dhcp, .NO_IP_AVAILABLE, none⟩
  | retried {x y : Nat} (hany : wantsAny dhcp requestedIp = false)
      (htaken : dhcp.Allocated (dhcp.hostOf requestedIp))
      (hx : Finds dhcp (dhcp.hostOf requestedIp) x)
      (hy : Finds (dhcp.take x) FIRST_ALLOCATABLE_HOST y) :
      AllocationCase dhcp requestedIp
        ⟨(dhcp.take x).take y, .IP_OCCUPIED_ALLOCATED_ANOTHER,
          some (buildFullIp dhcp.network y)⟩
  | retryFails {x : Nat} (hany : wantsAny dhcp requestedIp = false)
      (htaken : dhcp.Allocated (dhcp.hostOf requestedIp))
      (hx : Finds dhcp (dhcp.hostOf requestedIp) x)
      (hnone : ∀ y, ¬ Finds (dhcp.take x) FIRST_ALLOCATABLE_HOST y) :
      AllocationCase dhcp requestedIp ⟨dhcp.take x, .NO_IP_AVAILABLE, none⟩

/-- A search ends at a value of the trie that it does not hold. -/
theorem Finds.spec {dhcp : Dhcp} {requested x : Nat} (hx : Finds dhcp requested x)
    (hlt : requested < 2 ^ dhcp.depth) :
    x < 2 ^ dhcp.depth ∧ ¬ dhcp.Allocated x :=
  ⟨Probes.lt hx (Nat.le_refl _) hlt, Probes.free_end hx⟩

/-- The first allocatable host is a value of the trie. -/
theorem Dhcp.Wf.first_lt {netip : Ipv4} {mask : Nat} {dhcp : Dhcp} (hd : dhcp.Wf netip mask) :
    FIRST_ALLOCATABLE_HOST < 2 ^ dhcp.depth :=
  Nat.lt_of_lt_of_le (by decide) hd.four_le

/-- `AllocateNextAvailable` takes the host that the search from the first one finds. -/
theorem allocateNextAvailable_spec {netip : Ipv4} {mask : Nat} {dhcp : Dhcp}
    (hd : dhcp.Wf netip mask) (k : Nat) :
    (∃ x, Finds dhcp FIRST_ALLOCATABLE_HOST x ∧
      allocateNextAvailable (memory k) dhcp =
        ⟨dhcp.take x, .IP_OCCUPIED_ALLOCATED_ANOTHER, some x⟩) ∨
    ((∀ x, ¬ Finds dhcp FIRST_ALLOCATABLE_HOST x) ∧
      allocateNextAvailable (memory k) dhcp = ⟨dhcp, .NO_IP_AVAILABLE, none⟩) := by
  have hmalloc : ∀ b, memory k b = true := fun _ => rfl
  rcases trieInsert_spec hmalloc hd.trie hd.node FIRST_ALLOCATABLE_HOST with
    ⟨x, hx, hresult⟩ | ⟨hnone, hresult⟩
  · refine Or.inl ⟨x, hx, ?_⟩
    have hstatus : insertStatus FIRST_ALLOCATABLE_HOST x = .TRIE_SUCCESS ∨
        insertStatus FIRST_ALLOCATABLE_HOST x = .TRIE_IP_OCCUPIED_ALLOCATED_ANOTHER := by
      unfold insertStatus
      split
      · exact Or.inl rfl
      · exact Or.inr rfl
    rw [allocateNextAvailable, hresult]
    simp only [hstatus, if_true]
    rfl
  · refine Or.inr ⟨hnone, ?_⟩
    rw [allocateNextAvailable, hresult]
    rfl

/-- **Every allocation is one of the cases.** -/
theorem dhcpAllocateIp_cases {netip : Ipv4} {mask : Nat} {dhcp : Dhcp}
    (hd : dhcp.Wf netip mask) (requestedIp : Ipv4) :
    AllocationCase dhcp requestedIp (dhcpAllocateIp memory dhcp requestedIp) := by
  rw [dhcpAllocateIp, attemptAllocation]
  cases hany : wantsAny dhcp requestedIp with
  | true =>
      simp only [if_true]
      rcases allocateNextAvailable_spec hd 0 with ⟨x, hx, hresult⟩ | ⟨hnone, hresult⟩
      · rw [hresult]
        exact .any hany hx
      · rw [hresult]
        exact .anyFails hany hnone
  | false =>
      simp only [Bool.false_eq_true, if_false]
      have hmalloc : ∀ b, memory 0 b = true := fun _ => rfl
      by_cases htaken : dhcp.Allocated (dhcp.hostOf requestedIp)
      · rcases trieInsert_spec hmalloc hd.trie hd.node (dhcp.hostOf requestedIp) with
          ⟨x, hx, hresult⟩ | ⟨hnone, hresult⟩
        · -- the trie has allocated `x` already when the second search starts
          have hlt := hd.hostOf_lt requestedIp
          have hd' := hd.take (Finds.spec hx hlt).1
          have hne := hx.ne_of_taken htaken
          rw [hresult]
          simp only [insertStatus, hne, if_false, convertTrieStatus, true_or, if_true]
          have htake : Dhcp.mk (occupy dhcp.depth x dhcp.trie) dhcp.network dhcp.depth =
              dhcp.take x := rfl
          rw [htake]
          rcases allocateNextAvailable_spec hd' 1 with ⟨y, hy, hretry⟩ | ⟨hnone, hretry⟩
          · rw [hretry]
            exact .retried hany htaken hx hy
          · rw [hretry]
            exact .retryFails hany htaken hx hnone
        · rw [hresult]
          exact .takenFails hany htaken hnone
      · have hresult := trieInsert_of_free hmalloc hd.trie hd.node htaken
        rw [hresult]
        exact .granted hany htaken

/-- Every case takes hosts only: the manager stays well-formed, and no host is
given back. -/
theorem AllocationCase.grows {netip : Ipv4} {mask : Nat} {dhcp : Dhcp} {requestedIp : Ipv4}
    {result : Allocation} (hd : dhcp.Wf netip mask)
    (hcase : AllocationCase dhcp requestedIp result) :
    result.dhcp.Wf netip mask ∧
      ∀ h < 2 ^ dhcp.depth, dhcp.Allocated h → result.dhcp.Allocated h := by
  have hany : ∀ {x}, Finds dhcp FIRST_ALLOCATABLE_HOST x → x < 2 ^ dhcp.depth := fun hx =>
    (Finds.spec hx hd.first_lt).1
  have hreq : ∀ {x}, Finds dhcp (dhcp.hostOf requestedIp) x → x < 2 ^ dhcp.depth := fun hx =>
    (Finds.spec hx (hd.hostOf_lt requestedIp)).1
  cases hcase with
  | any _ hx =>
      exact ⟨hd.take (hany hx), fun h hh hold =>
        (allocated_take (hany hx) hh).mpr (Or.inr hold)⟩
  | anyFails _ _ => exact ⟨hd, fun _ _ hold => hold⟩
  | granted _ _ =>
      exact ⟨hd.take (hd.hostOf_lt requestedIp), fun h hh hold =>
        (allocated_take (hd.hostOf_lt requestedIp) hh).mpr (Or.inr hold)⟩
  | takenFails _ _ _ => exact ⟨hd, fun _ _ hold => hold⟩
  | @retried x y _ _ hx hy =>
      have hd' := hd.take (hreq hx)
      have hlt : y < 2 ^ (dhcp.take x).depth := (Finds.spec hy hd'.first_lt).1
      exact ⟨hd'.take hlt, fun h hh hold =>
        (allocated_take hlt hh).mpr (Or.inr ((allocated_take (hreq hx) hh).mpr (Or.inr hold)))⟩
  | retryFails _ _ hx _ =>
      exact ⟨hd.take (hreq hx), fun h hh hold =>
        (allocated_take (hreq hx) hh).mpr (Or.inr hold)⟩

/-- **What is handed out was free**: with one of the two statuses that hand out an
address, this is the address of a host that was not allocated and is now. -/
theorem AllocationCase.handsOut {netip : Ipv4} {mask : Nat} {dhcp : Dhcp}
    {requestedIp : Ipv4} {result : Allocation} (hd : dhcp.Wf netip mask)
    (hcase : AllocationCase dhcp requestedIp result) :
    if result.status.handsOut then
      ∃ x < 2 ^ dhcp.depth, ¬ dhcp.Allocated x ∧ result.dhcp.Allocated x ∧
        result.allocatedIp = some (buildFullIp dhcp.network x)
    else result.allocatedIp = none := by
  cases hcase with
  | @any x _ hx =>
      obtain ⟨hlt, hfree⟩ := Finds.spec hx hd.first_lt
      exact ⟨x, hlt, hfree, (allocated_take hlt hlt).mpr (Or.inl rfl), rfl⟩
  | anyFails _ _ => rfl
  | granted _ hfree =>
      have hlt := hd.hostOf_lt requestedIp
      exact ⟨_, hlt, hfree, (allocated_take hlt hlt).mpr (Or.inl rfl), rfl⟩
  | takenFails _ _ _ => rfl
  | @retried x y _ _ hx hy =>
      -- `y` is free next to `x`, so it was free before
      have hx' := (Finds.spec hx (hd.hostOf_lt requestedIp)).1
      obtain ⟨hlt, hfree⟩ := Finds.spec hy (hd.take hx').first_lt
      have hlt' : y < 2 ^ dhcp.depth := hlt
      refine ⟨y, hlt', fun hold => hfree ?_, (allocated_take hlt hlt).mpr (Or.inl rfl), rfl⟩
      exact (allocated_take hx' hlt').mpr (Or.inr hold)
  | retryFails _ _ _ _ => rfl

/-! ## Freeing -/

/-- What a call of `DHCPFreeIP` can do: it refuses, or it gives back an allocated
host that is not reserved. -/
theorem dhcpFreeIp_cases {netip : Ipv4} {mask : Nat} {dhcp : Dhcp} (hd : dhcp.Wf netip mask)
    (ip : Ipv4) :
    (∃ status, status ≠ .SUCCESS ∧ dhcpFreeIp dhcp ip = (dhcp, status)) ∨
      (isReservedHost (dhcp.hostOf ip) dhcp.depth = false ∧
        dhcp.Allocated (dhcp.hostOf ip) ∧
        dhcpFreeIp dhcp ip = (dhcp.giveBack (dhcp.hostOf ip), .SUCCESS)) := by
  rw [dhcpFreeIp]
  dsimp only
  cases hreserved : isReservedHost (dhcp.hostOf ip) dhcp.depth with
  | true => exact Or.inl ⟨.DOUBLE_FREE, by decide, rfl⟩
  | false =>
      simp only [Bool.false_eq_true, if_false]
      rcases trieFree_spec hd.trie hd.node (dhcp.hostOf ip) with
        ⟨htaken, hfree⟩ | ⟨-, status, hstatus, hfree⟩
      · exact Or.inr ⟨trivial, htaken, by rw [hfree]; rfl⟩
      · refine Or.inl ⟨convertTrieStatus status, ?_, by rw [hfree]⟩
        cases status <;> first | exact absurd rfl hstatus | decide

end Dhcp
end InfinityLabs
