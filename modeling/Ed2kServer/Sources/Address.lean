import Ed2kServer.Slab.Record

namespace Ed2kServer.Sources.Address

open Ed2kServer.Slab.Record

/-- An IPv4 address has its first octet in the low byte. -/
abbrev Ipv4 := UInt32

abbrev Ipv6 := Vector UInt8 16

inductive IpAddr
  | v4 (a : Ipv4)
  | v6 (a : Ipv6)
  deriving DecidableEq

def octet (a : Ipv4) (i : Nat) : Nat := a.toNat / 256 ^ i % 256

def isPublishableIpv6 (a : Ipv6) : Bool :=
  let isLoopback := a.toList == List.replicate 15 0 ++ [1]
  let isUnspecified := a.toList == List.replicate 16 0
  let isMulticast := a[0] == 0xFF
  let isLinkLocal := a[0] == 0xFE && a[1] &&& 0xC0 == 0x80
  let isUniqueLocal := a[0] &&& 0xFE == 0xFC
  let isIpv4Mapped := a.toList.take 12 == List.replicate 10 0 ++ [0xFF, 0xFF]
  !isLoopback && !isUnspecified && !isMulticast && !isLinkLocal && !isUniqueLocal &&
    !isIpv4Mapped

/-- Does the address mean anything outside one network? -/
def isPublishableSourceIp : IpAddr → Bool
  | .v4 v4 =>
    let a := octet v4 0
    let b := octet v4 1
    let isPrivate := a == 10 || (a == 172 && 16 ≤ b && b ≤ 31) || (a == 192 && b == 168)
    let isLoopback := a == 127
    let isLinkLocal := a == 169 && b == 254
    let isUnspecified := v4 == 0
    let isBroadcast := v4 == 0xFFFFFFFF
    let isMulticast := 224 ≤ a && a ≤ 239
    let isCarrierNat := a == 100 && 64 ≤ b && b < 128
    !isPrivate && !isLoopback && !isLinkLocal && !isUnspecified && !isBroadcast &&
      !isMulticast && !isCarrierNat
  | .v6 v6 => isPublishableIpv6 v6

/-- `Source::ip`. -/
def ip (s : Source) : IpAddr := .v4 s.ipv4

end Ed2kServer.Sources.Address
