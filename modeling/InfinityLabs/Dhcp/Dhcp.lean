import InfinityLabs.Dhcp.TrieInsert

/-!
# The DHCP manager

`projects/dhcp/src/dhcp.c` over the trie: the hosts of a subnet are the values of
the trie, three of them are reserved, and a taken request is retried from the
first allocatable host.

`malloc k b` is the outcome of the allocation for bit `b` in the `k`-th part of a
call that allocates.
-/

namespace InfinityLabs
namespace Dhcp

open Lib

/-- `IPv4_BITS`. -/
def IPv4_BITS : Nat := 32

/-- `NETWORK_ADDRESS_HOST`. -/
def NETWORK_ADDRESS_HOST : Nat := 0

/-- `GATEWAY_ADDRESS_HOST`. -/
def GATEWAY_ADDRESS_HOST : Nat := 1

/-- `FIRST_ALLOCATABLE_HOST`. -/
def FIRST_ALLOCATABLE_HOST : Nat := 2

/-- `RESERVED_IP_COUNT`. -/
def RESERVED_IP_COUNT : Nat := 3

/-- `BITS_PER_BYTE`. -/
def BITS_PER_BYTE : Nat := 8

/-- `BYTE_MASK`. -/
def BYTE_MASK : Nat := 0xFF

/-- `unsigned char ip[BYTES_IN_IPV4]`. -/
structure Ipv4 where
  byte0 : UInt8
  byte1 : UInt8
  byte2 : UInt8
  byte3 : UInt8
  deriving DecidableEq, Repr

/-- `dhcp_status_e`. -/
inductive DhcpStatus where
  | SUCCESS
  | ALLOC_FAILURE
  | IP_OCCUPIED_ALLOCATED_ANOTHER
  | NO_IP_AVAILABLE
  | DOUBLE_FREE
  | IP_NOT_FOUND
  deriving DecidableEq, Repr

/-- A `dhcp_t`. -/
structure Dhcp where
  trie : Trie
  network : Nat
  depth : Nat
  deriving DecidableEq, Repr

/-! ## Addresses -/

/-- The loop that both conversions start with: four bytes as one number. -/
def Ipv4.toUInt (ip : Ipv4) : Nat :=
  [ip.byte0, ip.byte1, ip.byte2, ip.byte3].foldl
    (fun n byte => n <<< BITS_PER_BYTE ||| byte.toNat) 0

/-- `ConvertSubnetToUInt`. -/
def convertSubnetToUInt (netip : Ipv4) (mask : Nat) : Nat :=
  if mask = 0 then 0
  else
    let subnetMask := (2 ^ IPv4_BITS - 1) <<< (IPv4_BITS - mask) % 2 ^ IPv4_BITS
    netip.toUInt &&& subnetMask

/-- `ExtractHostFromIp`. -/
def extractHostFromIp (ip : Ipv4) (mask : Nat) : Nat :=
  let hostBits := IPv4_BITS - mask
  if hostBits ≥ IPv4_BITS then ip.toUInt else ip.toUInt &&& (1 <<< hostBits - 1)

/-- `BuildFullIp`. -/
def buildFullIp (network ipAddress : Nat) : Ipv4 :=
  let full := network ||| ipAddress
  { byte3 := UInt8.ofNat (full &&& BYTE_MASK)
    byte2 := UInt8.ofNat (full >>> BITS_PER_BYTE &&& BYTE_MASK)
    byte1 := UInt8.ofNat (full >>> BITS_PER_BYTE >>> BITS_PER_BYTE &&& BYTE_MASK)
    byte0 := UInt8.ofNat
      (full >>> BITS_PER_BYTE >>> BITS_PER_BYTE >>> BITS_PER_BYTE &&& BYTE_MASK) }

/-- `IsReservedHost`. -/
def isReservedHost (ipAddress depth : Nat) : Bool :=
  let broadcast := 1 <<< depth - 1
  ipAddress == NETWORK_ADDRESS_HOST || ipAddress == GATEWAY_ADDRESS_HOST ||
    ipAddress == broadcast

/-! ## Operations -/

/-- `ConvertTrieStatus`. -/
def convertTrieStatus : TrieStatus → DhcpStatus
  | .TRIE_SUCCESS => .SUCCESS
  | .TRIE_IP_OCCUPIED_ALLOCATED_ANOTHER => .IP_OCCUPIED_ALLOCATED_ANOTHER
  | .TRIE_NO_IP_AVAILABLE => .NO_IP_AVAILABLE
  | .TRIE_ALLOC_FAILURE => .ALLOC_FAILURE
  | .TRIE_DOUBLE_FREE => .DOUBLE_FREE
  | .TRIE_IP_NOT_FOUND => .IP_NOT_FOUND

/-- `DHCPCreate`. -/
def dhcpCreate (malloc : Nat → Nat → Bool) (netip : Ipv4) (mask : Nat) : Option Dhcp :=
  let depth := IPv4_BITS - mask
  if !malloc 0 0 || !malloc 1 0 then none
  else
    let network := trieInsert (malloc 2) Trie.empty NETWORK_ADDRESS_HOST depth
    if network.status ≠ .TRIE_SUCCESS then none
    else
      let gateway := trieInsert (malloc 3) network.trie GATEWAY_ADDRESS_HOST depth
      if gateway.status ≠ .TRIE_SUCCESS then none
      else
        let broadcast := trieInsert (malloc 4) gateway.trie (1 <<< depth - 1) depth
        if broadcast.status ≠ .TRIE_SUCCESS then none
        else some ⟨broadcast.trie, convertSubnetToUInt netip mask, depth⟩

/-- An attempt to allocate: the manager after it, the status, and the host that was
written to `allocated_ip_address`, if one was. -/
structure Attempt where
  dhcp : Dhcp
  status : DhcpStatus
  allocatedIpAddress : Option Nat

/-- `AllocateNextAvailable`. -/
def allocateNextAvailable (malloc : Nat → Bool) (dhcp : Dhcp) : Attempt :=
  let result := trieInsert malloc dhcp.trie FIRST_ALLOCATABLE_HOST dhcp.depth
  { dhcp := { dhcp with trie := result.trie }
    status :=
      if result.status = .TRIE_SUCCESS ∨
          result.status = .TRIE_IP_OCCUPIED_ALLOCATED_ANOTHER then
        .IP_OCCUPIED_ALLOCATED_ANOTHER
      else convertTrieStatus result.status
    allocatedIpAddress := result.allocatedIp }

/-- The manager after `DHCPAllocateIP`, its status, and `allocated_ip` where it is
written. -/
structure Allocation where
  dhcp : Dhcp
  status : DhcpStatus
  allocatedIp : Option Ipv4

/-- The statuses with which an address is handed out. -/
def DhcpStatus.handsOut (status : DhcpStatus) : Prop :=
  status = .SUCCESS ∨ status = .IP_OCCUPIED_ALLOCATED_ANOTHER

instance (status : DhcpStatus) : Decidable status.handsOut :=
  inferInstanceAs (Decidable (_ ∨ _))

/-- The address that a request without an address carries. -/
def zeroIp : Ipv4 := ⟨0, 0, 0, 0⟩

/-- The host that a manager extracts from an address. -/
def Dhcp.hostOf (dhcp : Dhcp) (ip : Ipv4) : Nat :=
  extractHostFromIp ip (IPv4_BITS - dhcp.depth)

/-- The request goes to `AllocateNextAvailable` at once. -/
def wantsAny (dhcp : Dhcp) (requestedIp : Ipv4) : Bool :=
  requestedIp == zeroIp || isReservedHost (dhcp.hostOf requestedIp) dhcp.depth

/-- The allocation of `DHCPAllocateIP`, before the full address is built. -/
def attemptAllocation (malloc : Nat → Nat → Bool) (dhcp : Dhcp) (requestedIp : Ipv4) :
    Attempt :=
  if wantsAny dhcp requestedIp then allocateNextAvailable (malloc 0) dhcp
  else
    let result := trieInsert (malloc 0) dhcp.trie (dhcp.hostOf requestedIp) dhcp.depth
    let status := convertTrieStatus result.status
    let dhcp := { dhcp with trie := result.trie }
    -- whatever the trie allocated instead of a taken host, another one is searched
    if status = .IP_OCCUPIED_ALLOCATED_ANOTHER ∨ status = .ALLOC_FAILURE then
      allocateNextAvailable (malloc 1) dhcp
    else ⟨dhcp, status, result.allocatedIp⟩

/-- `DHCPAllocateIP`. -/
def dhcpAllocateIp (malloc : Nat → Nat → Bool) (dhcp : Dhcp) (requestedIp : Ipv4) :
    Allocation :=
  let attempt := attemptAllocation malloc dhcp requestedIp
  { dhcp := attempt.dhcp
    status := attempt.status
    allocatedIp :=
      if attempt.status.handsOut then
        some (buildFullIp dhcp.network (attempt.allocatedIpAddress.getD 0))
      else none }

/-- `DHCPFreeIP`. -/
def dhcpFreeIp (dhcp : Dhcp) (ip : Ipv4) : Dhcp × DhcpStatus :=
  let ipAddress := dhcp.hostOf ip
  if isReservedHost ipAddress dhcp.depth then (dhcp, .DOUBLE_FREE)
  else
    let (trie, status) := trieFree dhcp.trie ipAddress dhcp.depth
    ({ dhcp with trie := trie }, convertTrieStatus status)

/-- `DHCPCountFree`. -/
def dhcpCountFree (dhcp : Dhcp) : Nat :=
  let trieFree := trieCountFree dhcp.trie dhcp.depth
  if trieFree > RESERVED_IP_COUNT then trieFree - RESERVED_IP_COUNT else 0

/-! ## Addresses and hosts -/

/-- Shifting in a byte. -/
theorem shift_or_byte (n : Nat) (byte : UInt8) :
    n <<< BITS_PER_BYTE ||| byte.toNat = n * 256 + byte.toNat := by
  have hbyte : byte.toNat < 2 ^ BITS_PER_BYTE := byte.toNat_lt
  rw [← Nat.shiftLeft_add_eq_or_of_lt hbyte, Nat.shiftLeft_eq]
  rfl

/-- The number of an address in terms of its bytes. -/
theorem toUInt_eq (ip : Ipv4) :
    ip.toUInt = ((ip.byte0.toNat * 256 + ip.byte1.toNat) * 256 + ip.byte2.toNat) * 256 +
      ip.byte3.toNat := by
  simp only [Ipv4.toUInt, List.foldl_cons, List.foldl_nil, shift_or_byte]
  omega

/-- An address is a 32-bit number. -/
theorem toUInt_lt (ip : Ipv4) : ip.toUInt < 2 ^ IPv4_BITS := by
  have h0 := ip.byte0.toNat_lt
  have h1 := ip.byte1.toNat_lt
  have h2 := ip.byte2.toNat_lt
  have h3 := ip.byte3.toNat_lt
  rw [toUInt_eq, IPv4_BITS]
  omega

/-- The number determines the bytes. -/
theorem toUInt_inj {ip ip' : Ipv4} (h : ip.toUInt = ip'.toUInt) : ip = ip' := by
  have h0 := ip.byte0.toNat_lt
  have h1 := ip.byte1.toNat_lt
  have h2 := ip.byte2.toNat_lt
  have h3 := ip.byte3.toNat_lt
  have h0' := ip'.byte0.toNat_lt
  have h1' := ip'.byte1.toNat_lt
  have h2' := ip'.byte2.toNat_lt
  have h3' := ip'.byte3.toNat_lt
  rw [toUInt_eq, toUInt_eq] at h
  obtain ⟨b0, b1, b2, b3⟩ := ip
  obtain ⟨c0, c1, c2, c3⟩ := ip'
  simp only [Ipv4.mk.injEq, ← UInt8.toNat_inj] at *
  omega

/-- The bytes that `BuildFullIp` writes are those of the full number. -/
theorem toUInt_buildFullIp {network host : Nat} (hfull : network ||| host < 2 ^ IPv4_BITS) :
    (buildFullIp network host).toUInt = network ||| host := by
  have hbyte : ∀ n, n &&& BYTE_MASK = n % 256 := fun n =>
    Nat.and_two_pow_sub_one_eq_mod n 8
  rw [toUInt_eq]
  simp only [buildFullIp, hbyte, UInt8.toNat_ofNat', BITS_PER_BYTE, Nat.shiftRight_eq_div_pow]
  rw [IPv4_BITS] at hfull
  omega

/-- The network number keeps the bits above the host and clears the others. -/
theorem convertSubnetToUInt_eq (netip : Ipv4) {mask : Nat} (hmask : mask ≠ 0) :
    convertSubnetToUInt netip mask =
      netip.toUInt >>> (IPv4_BITS - mask) <<< (IPv4_BITS - mask) := by
  rw [convertSubnetToUInt, if_neg hmask]
  apply Nat.eq_of_testBit_eq
  intro i
  have hhigh : IPv4_BITS ≤ i → netip.toUInt.testBit i = false := fun hi =>
    Nat.testBit_lt_two_pow
      (Nat.lt_of_lt_of_le (toUInt_lt netip) (Nat.pow_le_pow_right Nat.two_pos hi))
  rw [Nat.testBit_and, Nat.testBit_mod_two_pow, Nat.testBit_shiftLeft, Nat.testBit_shiftLeft,
    Nat.testBit_shiftRight, Nat.testBit_two_pow_sub_one]
  by_cases hi : i < IPv4_BITS
  · by_cases hlow : IPv4_BITS - mask ≤ i
    · have hsum : IPv4_BITS - mask + (i - (IPv4_BITS - mask)) = i := by omega
      have hrest : i - (IPv4_BITS - mask) < IPv4_BITS := by omega
      simp [hi, hlow, hsum, hrest]
    · simp [hlow]
  · rw [hhigh (Nat.le_of_not_lt hi), Bool.false_and]
    by_cases hlow : IPv4_BITS - mask ≤ i
    · have hsum : IPv4_BITS - mask + (i - (IPv4_BITS - mask)) = i := by omega
      rw [hsum, hhigh (Nat.le_of_not_lt hi), Bool.and_false]
    · simp [hlow]

/-- The host of an address is its number below the mask. -/
theorem extractHostFromIp_eq (ip : Ipv4) {mask : Nat} (hmask : mask ≠ 0)
    (hle : mask ≤ IPv4_BITS) :
    extractHostFromIp ip mask = ip.toUInt % 2 ^ (IPv4_BITS - mask) := by
  have hbits : ¬ IPv4_BITS - mask ≥ IPv4_BITS := by
    rw [IPv4_BITS] at *
    omega
  rw [extractHostFromIp]
  simp only [hbits, if_false, Nat.one_shiftLeft]
  exact Nat.and_two_pow_sub_one_eq_mod _ _

/-- A host is below the size of the subnet. -/
theorem extractHostFromIp_lt (ip : Ipv4) {mask : Nat} (hmask : mask ≠ 0)
    (hle : mask ≤ IPv4_BITS) : extractHostFromIp ip mask < 2 ^ (IPv4_BITS - mask) := by
  rw [extractHostFromIp_eq ip hmask hle]
  exact Nat.mod_lt _ (Nat.two_pow_pos _)

end Dhcp
end InfinityLabs
