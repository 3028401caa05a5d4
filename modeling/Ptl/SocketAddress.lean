import Ptl.ByteOrder
import Ptl.IoOperation

/-!
# Socket addresses

This module embeds `ip_address.hpp` and `ip_endpoint.hpp`, the addresses that
`socket_internal` passes to `bind` and `connect`, and those it takes from `accept`,
`getsockname` and `getpeername`.  A `sockaddr_storage` is memory with arbitrary
contents; the structures `sockaddr_in` and `sockaddr_in6` have the layout of Linux.

* `bind` and `connect` copy four bytes of the address for both families, and pass
  the size of `sockaddr_in` for both.
* `get_local` and `get_remote` convert an IPv4 address with `ntohl`, `accept` does
  not.  All of them decide on the family by `local_`.

**Results.**
* `sockaddr_roundTrip_iff`: the arguments of `bind` and `connect` decode to the
  endpoint exactly if it is an IPv4 endpoint.
* `remotes_agree_iff`: on a little-endian host, `accept` and `get_remote` both find
  the peer exactly if it has the family of `local_` and its address, if it is an IPv4
  address, reads the same from both ends.
-/

namespace Ptl
namespace Asio

open Bytes Io

/-- `ipv4_address`, with the bytes in network order. -/
@[ext] structure Ipv4Address where
  address : List Byte
  length_address : address.length = 4
deriving DecidableEq

/-- `ipv6_address`. -/
@[ext] structure Ipv6Address where
  address : List Byte
  length_address : address.length = 16
deriving DecidableEq

/-- `ipv4_address(uint32_t)`. -/
def Ipv4Address.ofInteger (addr : BitVec 32) : Ipv4Address where
  address := [(addr >>> 24).setWidth 8, (addr >>> 16).setWidth 8,
    (addr >>> 8).setWidth 8, (addr >>> 0).setWidth 8]
  length_address := rfl

structure Ipv4Endpoint where
  address : Ipv4Address
  port : BitVec 16
deriving DecidableEq

structure Ipv6Endpoint where
  address : Ipv6Address
  port : BitVec 16
deriving DecidableEq

inductive IpEndpoint where
  | ipv4 (ep : Ipv4Endpoint)
  | ipv6 (ep : Ipv6Endpoint)
deriving DecidableEq

def IpEndpoint.isIpv4 : IpEndpoint → Bool
  | ipv4 _ => true
  | ipv6 _ => false

/-- `ip_endpoint()`. -/
def IpEndpoint.new : IpEndpoint :=
  .ipv4 { address := { address := [0, 0, 0, 0], length_address := rfl }, port := 0 }

section Sockaddr

variable (e : Endian)

def htons (x : BitVec 16) : BitVec 16 :=
  BitVec.ofNat 16 (hton e 2 x.toNat)

def ntohs (x : BitVec 16) : BitVec 16 :=
  BitVec.ofNat 16 (ntoh e 2 x.toNat)

def ntohl (x : BitVec 32) : BitVec 32 :=
  BitVec.ofNat 32 (ntoh e 4 x.toNat)

def AF_INET : Nat := 2

def AF_INET6 : Nat := 10

def sizeofSockaddrIn : Nat := 16

def sizeofSockaddrIn6 : Nat := 28

/-- `addr->sin_port`; `sin6_port` is at the same place. -/
def sinPort (storage : Memory) : BitVec 16 :=
  BitVec.ofNat 16 (load e (storage.read 2 2))

/-- `addr->sin_addr.s_addr`. -/
def sAddr (storage : Memory) : BitVec 32 :=
  BitVec.ofNat 32 (load e (storage.read 4 4))

/-- `ipv6_address(addr->sin6_addr.s6_addr)`. -/
def sin6Addr (storage : Memory) : Ipv6Address where
  address := storage.read 8 16
  length_address := Memory.length_read ..

/-- The arguments `address` and `address_len` of a system call. -/
structure SocketCall where
  address : Memory
  addressLen : Nat

/-- The statements that `bind` and `connect` share, on uninitialised storage. -/
def sockaddrOf (storage : Memory) : IpEndpoint → SocketCall
  | .ipv4 ep4 =>
      let family := storage.write 0 (store e 2 AF_INET)
      let address := family.write 4 (ep4.address.address.take 4)
      { address := address.write 2 (store e 2 (htons e ep4.port).toNat)
        addressLen := sizeofSockaddrIn }
  | .ipv6 ep6 =>
      let family := storage.write 0 (store e 2 AF_INET6)
      -- `sizeof` of an IPv4 address
      let address := family.write 8 (ep6.address.address.take 4)
      { address := address.write 2 (store e 2 (htons e ep6.port).toNat)
        addressLen := sizeofSockaddrIn }

end Sockaddr

/-- The members `local_` and `remote_` of `socket_internal`. -/
@[ext] structure Endpoints where
  localEndpoint : IpEndpoint
  remoteEndpoint : IpEndpoint
deriving DecidableEq

namespace Endpoints

def new : Endpoints where
  localEndpoint := .new
  remoteEndpoint := .new

variable (e : Endian)

/-- `socket_internal::bind` up to the system call. -/
def bind (m : Endpoints) (storage : Memory) (ep : IpEndpoint) : Endpoints × SocketCall :=
  let m := { m with localEndpoint := ep }
  (m, sockaddrOf e storage m.localEndpoint)

/-- `socket_internal::connect` up to the system call. -/
def connect (m : Endpoints) (storage : Memory) (ep : IpEndpoint) : Endpoints × SocketCall :=
  (m, sockaddrOf e storage ep)

/-- `len` in `accept`, `get_local` and `get_remote`. -/
def len (m : Endpoints) : Nat :=
  if m.localEndpoint.isIpv4 then sizeofSockaddrIn else sizeofSockaddrIn6

/-- `socket_internal::accept`. -/
def accept (m : Endpoints) : Except ErrorCode (Nat × Memory) → Endpoints × Io.Expected Nat
  | .error errno => (m, .unexpected errno)
  | .ok (descriptor, storage) =>
      if m.localEndpoint.isIpv4 then
        ({ m with
            remoteEndpoint := .ipv4
              { address := .ofInteger (sAddr e storage)
                port := ntohs e (sinPort e storage) } },
          .expected descriptor)
      else
        ({ m with
            remoteEndpoint := .ipv6
              { address := sin6Addr storage
                port := ntohs e (sinPort e storage) } },
          .expected descriptor)

/-- What `get_local` and `get_remote` make of the address they get. -/
def parsed (m : Endpoints) (storage : Memory) : IpEndpoint :=
  if m.localEndpoint.isIpv4 then
    .ipv4
      { address := .ofInteger (ntohl e (sAddr e storage))
        port := ntohs e (sinPort e storage) }
  else
    .ipv6
      { address := sin6Addr storage
        port := ntohs e (sinPort e storage) }

/-- `socket_internal::get_local`. -/
def getLocal (m : Endpoints) : Except ErrorCode Memory → Endpoints × Io.Expected Unit
  | .error errno => (m, .unexpected errno)
  | .ok storage => ({ m with localEndpoint := m.parsed e storage }, .nothing)

/-- `socket_internal::get_remote`. -/
def getRemote (m : Endpoints) : Except ErrorCode Memory → Endpoints × Io.Expected Unit
  | .error errno => (m, .unexpected errno)
  | .ok storage => ({ m with remoteEndpoint := m.parsed e storage }, .nothing)

/-- `socket_internal::listen`, with the outcomes of `listen` and `getsockname`. -/
def listen (m : Endpoints) (r : SysResult) (name : Except ErrorCode Memory) :
    Endpoints × Io.Expected Unit :=
  match r.toVoid with
  | .unexpected errno => (m, .unexpected errno)
  | _ => m.getLocal e name

end Endpoints

section Representation

/-- The size of the structure for the family of an endpoint. -/
def sockaddrSize : IpEndpoint → Nat
  | .ipv4 _ => sizeofSockaddrIn
  | .ipv6 _ => sizeofSockaddrIn6

/-- Memory that holds the structure for an endpoint; the other members are arbitrary. -/
def Represents (e : Endian) (m : Memory) : IpEndpoint → Prop
  | .ipv4 ep =>
      m.read 0 2 = store e 2 AF_INET ∧ m.read 2 2 = store .big 2 ep.port.toNat ∧
        m.read 4 4 = ep.address.address
  | .ipv6 ep =>
      m.read 0 2 = store e 2 AF_INET6 ∧ m.read 2 2 = store .big 2 ep.port.toNat ∧
        m.read 8 16 = ep.address.address

/-- What the system stores for an endpoint if `limit` bytes may be written. -/
def Answers (e : Endian) (ep : IpEndpoint) (limit : Nat) (storage : Memory) : Prop :=
  ∃ m, Represents e m ep ∧ ∀ k < min limit (sockaddrSize ep), storage k = m k

/--
The arguments cover the structure for the family, and every socket of that family
finds the endpoint in the bytes passed, whatever is behind them.
-/
def RoundTrip (e : Endian) (ep : IpEndpoint) (call : SocketCall) : Prop :=
  call.addressLen = sockaddrSize ep ∧
  ∀ (m : Endpoints) (storage : Memory),
    m.localEndpoint.isIpv4 = ep.isIpv4 →
    (∀ k < call.addressLen, storage k = call.address k) →
    (m.getLocal e (.ok storage)).1.localEndpoint = ep

variable {e : Endian} {storage : Memory}

theorem port_lt (x : BitVec 16) :
    x.toNat < 256 ^ 2 :=
  x.isLt

theorem toNat_htons (x : BitVec 16) :
    (htons e x).toNat = hton e 2 x.toNat := by
  rw [htons, BitVec.toNat_ofNat]
  exact Nat.mod_eq_of_lt (hton_lt e 2 x.toNat)

/-- A port in network order, as the host sees it. -/
theorem ntohs_sinPort
    {port : BitVec 16}
    (h : storage.read 2 2 = store .big 2 port.toNat) :
    ntohs e (sinPort e storage) = port := by
  have hlt : load e (storage.read 2 2) < 2 ^ 16 := by
    have hlt := load_lt e (storage.read 2 2)
    rwa [Memory.length_read] at hlt
  have hntoh := ntoh_load e (storage.read 2 2)
  rw [Memory.length_read] at hntoh
  rw [ntohs, sinPort, BitVec.toNat_ofNat, Nat.mod_eq_of_lt hlt, hntoh, h,
    load_store .big (port_lt port), BitVec.ofNat_toNat, BitVec.setWidth_eq]

/-- The constructor of `ipv4_address` takes the most significant byte first. -/
theorem address_ofInteger
    {bs : List Byte}
    (h : bs.length = 4) :
    (Ipv4Address.ofInteger (BitVec.ofNat 32 (load .big bs))).address = bs := by
  match bs, h with
  | [a, b, c, d], _ =>
    have ha : a.toNat < 256 := a.isLt
    have hb : b.toNat < 256 := b.isLt
    have hc : c.toNat < 256 := c.isLt
    have hd : d.toNat < 256 := d.isLt
    have hload : load .big [a, b, c, d] =
        d.toNat + 256 * (c.toNat + 256 * (b.toNat + 256 * a.toNat)) := rfl
    simp only [Ipv4Address.ofInteger, hload, List.cons.injEq, and_true]
    refine ⟨?_, ?_, ?_, ?_⟩ <;>
      · apply BitVec.eq_of_toNat_eq
        simp only [BitVec.toNat_setWidth, BitVec.toNat_ushiftRight, BitVec.toNat_ofNat,
          Nat.shiftRight_eq_div_pow]
        omega

theorem sAddr_toNat :
    (sAddr e storage).toNat = load e (storage.read 4 4) := by
  have hlt := load_lt e (storage.read 4 4)
  rw [Memory.length_read] at hlt
  rw [sAddr, BitVec.toNat_ofNat]
  exact Nat.mod_eq_of_lt hlt

/-- With `ntohl`, the address is read on every host. -/
theorem ofInteger_ntohl_sAddr :
    (Ipv4Address.ofInteger (ntohl e (sAddr e storage))).address = storage.read 4 4 := by
  have hntoh := ntoh_load e (storage.read 4 4)
  rw [Memory.length_read] at hntoh
  rw [ntohl, sAddr_toNat, hntoh]
  exact address_ofInteger (Memory.length_read ..)

/-- Without it, a little-endian host reads the address from its end. -/
theorem ofInteger_sAddr_little (storage : Memory) :
    (Ipv4Address.ofInteger (sAddr .little storage)).address = (storage.read 4 4).reverse := by
  rw [sAddr, load_little_reverse]
  exact address_ofInteger (by simp)

theorem Represents.congr
    {m : Memory} {ep : IpEndpoint}
    (h : Represents e m ep)
    (hk : ∀ k < sockaddrSize ep, storage k = m k) :
    Represents e storage ep := by
  have hread : ∀ offset n, offset + n ≤ sockaddrSize ep →
      storage.read offset n = m.read offset n := by
    intro offset n hle
    exact Memory.read_congr fun k hkn => hk (offset + k) (by omega)
  cases ep with
  | ipv4 ep =>
      obtain ⟨hfamily, hport, haddress⟩ := h
      refine ⟨(hread 0 2 ?_).trans hfamily, (hread 2 2 ?_).trans hport,
        (hread 4 4 ?_).trans haddress⟩ <;> simp [sockaddrSize, sizeofSockaddrIn]
  | ipv6 ep =>
      obtain ⟨hfamily, hport, haddress⟩ := h
      refine ⟨(hread 0 2 ?_).trans hfamily, (hread 2 2 ?_).trans hport,
        (hread 8 16 ?_).trans haddress⟩ <;> simp [sockaddrSize, sizeofSockaddrIn6]

/-- An answer that was not cut off is the structure for the endpoint. -/
theorem Answers.represents
    {ep : IpEndpoint} {limit : Nat}
    (h : Answers e ep limit storage)
    (hlimit : sockaddrSize ep ≤ limit) :
    Represents e storage ep := by
  obtain ⟨m, hm, hk⟩ := h
  rw [Nat.min_eq_right hlimit] at hk
  exact hm.congr hk

theorem len_eq
    {m : Endpoints} {ep : IpEndpoint}
    (hfamily : m.localEndpoint.isIpv4 = ep.isIpv4) :
    m.len = sockaddrSize ep := by
  cases ep with
  | ipv4 ep =>
      exact if_pos hfamily
  | ipv6 ep =>
      exact if_neg (Bool.eq_false_iff.mp hfamily)

/-- The family is taken from `local_`, whatever the system has stored. -/
theorem isIpv4_parsed (m : Endpoints) :
    (m.parsed e storage).isIpv4 = m.localEndpoint.isIpv4 := by
  rw [Endpoints.parsed]
  split
  · next h => exact h.symm
  · next h => exact (Bool.eq_false_iff.mpr h).symm

/-- `get_local` and `get_remote` find an endpoint of the family they look for. -/
theorem parsed_eq_of_represents
    {m : Endpoints} {ep : IpEndpoint}
    (hfamily : m.localEndpoint.isIpv4 = ep.isIpv4)
    (h : Represents e storage ep) :
    m.parsed e storage = ep := by
  cases ep with
  | ipv4 ep =>
      have haddress : Ipv4Address.ofInteger (ntohl e (sAddr e storage)) = ep.address :=
        Ipv4Address.ext (ofInteger_ntohl_sAddr.trans h.2.2)
      have hv4 : m.localEndpoint.isIpv4 = true := hfamily
      rw [Endpoints.parsed, if_pos hv4, haddress, ntohs_sinPort h.2.1]
  | ipv6 ep =>
      have haddress : sin6Addr storage = ep.address := Ipv6Address.ext h.2.2
      have hv6 : ¬ m.localEndpoint.isIpv4 = true := Bool.eq_false_iff.mp hfamily
      rw [Endpoints.parsed, if_neg hv6, haddress, ntohs_sinPort h.2.1]

theorem parsed_eq_iff
    {m : Endpoints} {ep : IpEndpoint}
    (h : Answers e ep m.len storage) :
    m.parsed e storage = ep ↔ m.localEndpoint.isIpv4 = ep.isIpv4 := by
  constructor
  · intro heq
    rw [← heq, isIpv4_parsed]
  · intro hfamily
    exact parsed_eq_of_represents hfamily
      (h.represents (Nat.le_of_eq (len_eq hfamily).symm))

end Representation

section Arguments

variable {e : Endian} {storage : Memory}

/-- For IPv4, `bind` and `connect` fill the structure. -/
theorem represents_sockaddrOf_ipv4 (ep : Ipv4Endpoint) :
    Represents e (sockaddrOf e storage (.ipv4 ep)).address (.ipv4 ep) := by
  have haddress : ep.address.address.take 4 = ep.address.address :=
    List.take_of_length_le (Nat.le_of_eq ep.address.length_address)
  refine ⟨?_, ?_, ?_⟩
  · rw [sockaddrOf, Memory.read_write_of_disjoint (Or.inr (Nat.le_refl 2)),
      Memory.read_write_of_disjoint (Or.inr (by omega)),
      Memory.read_write (length_store ..)]
  · rw [sockaddrOf, toNat_htons, store_hton, Memory.read_write (length_store ..)]
  · rw [sockaddrOf, Memory.read_write_of_disjoint (Or.inl (by simp)), haddress,
      Memory.read_write ep.address.length_address]

variable (e storage) in
theorem roundTrip_sockaddrOf_iff (ep : IpEndpoint) :
    RoundTrip e ep (sockaddrOf e storage ep) ↔ ep.isIpv4 = true := by
  cases ep with
  | ipv4 ep =>
      refine iff_of_true ⟨rfl, fun m received hfamily hk => ?_⟩ rfl
      exact parsed_eq_of_represents hfamily (represents_sockaddrOf_ipv4 ep |>.congr hk)
  | ipv6 ep =>
      refine iff_of_false ?_ Bool.false_ne_true
      rintro ⟨hlen, -⟩
      have hlen : sizeofSockaddrIn = sizeofSockaddrIn6 := hlen
      exact absurd hlen (by decide)

end Arguments

/--
What `bind` and `connect` pass to the system decodes to the endpoint exactly if it
is an IPv4 endpoint.
-/
theorem sockaddr_roundTrip_iff
    (e : Endian) (m : Endpoints) (storage : Memory) (ep : IpEndpoint) :
    RoundTrip e ep (m.bind e storage ep).2 ∧ RoundTrip e ep (m.connect e storage ep).2 ↔
      ep.isIpv4 = true := by
  have h := roundTrip_sockaddrOf_iff e storage ep
  exact (and_congr h h).trans (and_self_iff)

/-- The IPv6 loopback address. -/
def loopback6 : IpEndpoint :=
  .ipv6
    { address := { address := List.replicate 15 0 ++ [1], length_address := rfl }
      port := 80 }

theorem not_sockaddr_roundTrip :
    ¬ ∀ (e : Endian) (m : Endpoints) (storage : Memory) (ep : IpEndpoint),
      RoundTrip e ep (m.bind e storage ep).2 ∧ RoundTrip e ep (m.connect e storage ep).2 := by
  intro h
  obtain ⟨⟨hlen, -⟩, -⟩ := h .little .new (fun _ => 0) loopback6
  exact absurd hlen (by decide)

section Remotes

variable {m : Endpoints} {peer : IpEndpoint} {storage : Memory}

/-- An IPv4 address is the same from both ends. -/
def IpEndpoint.Palindrome : IpEndpoint → Prop
  | .ipv4 ep => ep.address.address.reverse = ep.address.address
  | .ipv6 _ => True

theorem getRemote_eq_iff
    {e : Endian}
    (h : Answers e peer m.len storage) :
    (m.getRemote e (.ok storage)).1.remoteEndpoint = peer ↔
      m.localEndpoint.isIpv4 = peer.isIpv4 :=
  parsed_eq_iff h

/-- A `listen` that succeeds reads the address of the socket as `get_remote` that of the peer. -/
theorem listen_eq_iff
    {e : Endian} {ep : IpEndpoint} {n : Nat}
    (h : Answers e ep m.len storage) :
    (m.listen e (.ok n) (.ok storage)).1.localEndpoint = ep ↔
      m.localEndpoint.isIpv4 = ep.isIpv4 :=
  parsed_eq_iff h

/-- `accept` reverses an IPv4 address. -/
theorem accept_eq_iff
    {descriptor : Nat}
    (h : Answers .little peer m.len storage) :
    (m.accept .little (.ok (descriptor, storage))).1.remoteEndpoint = peer ↔
      m.localEndpoint.isIpv4 = peer.isIpv4 ∧ peer.Palindrome := by
  have hrepresents : m.localEndpoint.isIpv4 = peer.isIpv4 →
      Represents .little storage peer := fun hfamily =>
    h.represents (Nat.le_of_eq (len_eq hfamily).symm)
  cases hv4 : m.localEndpoint.isIpv4 with
  | true =>
      simp only [Endpoints.accept, if_pos hv4]
      cases peer with
      | ipv4 ep =>
          obtain ⟨-, hport, haddress⟩ := hrepresents hv4
          have haccepted := ofInteger_sAddr_little storage
          rw [haddress] at haccepted
          rw [ntohs_sinPort hport, IpEndpoint.Palindrome, ← haccepted]
          constructor
          · intro heq
            have haddr := congrArg Ipv4Endpoint.address (IpEndpoint.ipv4.inj heq)
            exact ⟨rfl, congrArg Ipv4Address.address haddr⟩
          · rintro ⟨-, haddr⟩
            rw [Ipv4Address.ext haddr]
      | ipv6 ep =>
          simp [IpEndpoint.isIpv4]
  | false =>
      simp only [Endpoints.accept, if_neg (Bool.eq_false_iff.mp hv4)]
      cases peer with
      | ipv4 ep =>
          simp [IpEndpoint.isIpv4]
      | ipv6 ep =>
          obtain ⟨-, hport, haddress⟩ := hrepresents hv4
          have hsin6 : sin6Addr storage = ep.address := Ipv6Address.ext haddress
          rw [ntohs_sinPort hport, hsin6]
          exact iff_of_true rfl ⟨rfl, trivial⟩

/--
On a little-endian host, `accept` and `get_remote` both find the peer exactly if
`local_` is of its family and its address is not changed by the missing `ntohl`.
-/
theorem remotes_agree_iff
    {m' : Endpoints} {storage' : Memory} {descriptor : Nat}
    (haccept : Answers .little peer m.len storage)
    (hremote : Answers .little peer m'.len storage') :
    ((m.accept .little (.ok (descriptor, storage))).1.remoteEndpoint = peer ∧
      (m'.getRemote .little (.ok storage')).1.remoteEndpoint = peer) ↔
    m.localEndpoint.isIpv4 = peer.isIpv4 ∧ m'.localEndpoint.isIpv4 = peer.isIpv4 ∧
      peer.Palindrome := by
  rw [accept_eq_iff haccept, getRemote_eq_iff hremote]
  tauto

/-- `sockaddr_in6` of `loopback6` on a little-endian host. -/
def loopback6Storage : Memory :=
  fun k => if k = 0 then 10 else if k = 3 then 80 else if k = 23 then 1 else 0

theorem answers_loopback6 (limit : Nat) :
    Answers .little loopback6 limit loopback6Storage :=
  ⟨loopback6Storage, ⟨by decide, by decide, by decide⟩, fun _ _ => rfl⟩

/-- A socket that is bound to an IPv6 address. -/
def bound6 : Endpoints where
  localEndpoint := loopback6
  remoteEndpoint := .new

theorem remotes_agree_loopback6 :
    (bound6.accept .little (.ok (7, loopback6Storage))).1.remoteEndpoint = loopback6 ∧
      (bound6.getRemote .little (.ok loopback6Storage)).1.remoteEndpoint = loopback6 :=
  (remotes_agree_iff (answers_loopback6 _) (answers_loopback6 _)).mpr ⟨rfl, rfl, trivial⟩

/-- 192.0.2.1, port 80. -/
def documentation4 : IpEndpoint :=
  .ipv4
    { address := { address := [192, 0, 2, 1], length_address := rfl }
      port := 80 }

/-- `sockaddr_in` of `documentation4` on a little-endian host. -/
def documentation4Storage : Memory :=
  fun k => if k = 0 then 2 else if k = 3 then 80 else if k = 4 then 192 else
    if k = 6 then 2 else if k = 7 then 1 else 0

theorem answers_documentation4 (limit : Nat) :
    Answers .little documentation4 limit documentation4Storage :=
  ⟨documentation4Storage, ⟨by decide, by decide, by decide⟩, fun _ _ => rfl⟩

theorem not_remotes_agree :
    ¬ ∀ (m m' : Endpoints) (peer : IpEndpoint) (storage storage' : Memory) (descriptor : Nat),
      Answers .little peer m.len storage → Answers .little peer m'.len storage' →
      (m.accept .little (.ok (descriptor, storage))).1.remoteEndpoint = peer ∧
        (m'.getRemote .little (.ok storage')).1.remoteEndpoint = peer := by
  intro h
  have hpeer := h .new .new documentation4 documentation4Storage documentation4Storage 7
    (answers_documentation4 _) (answers_documentation4 _)
  exact absurd hpeer.1 (by decide)

end Remotes

end Asio
end Ptl
