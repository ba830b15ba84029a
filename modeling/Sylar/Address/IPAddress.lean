import Sylar.Address.Endian

/-! # `IPv4Address` and `IPv6Address`

The socket addresses field by field, as a little-endian host keeps them in memory, with the
constructors, the ports and the printers of both classes. Numbers are printed in decimal, and
the groups of an IPv6 address in hexadecimal.
-/

namespace Sylar.Address

open Collection

/-! ## IPv4 -/

structure SockaddrIn where
  sinFamily : UInt16
  sinPort : UInt16
  sinAddr : UInt32
  sinZero : Vector UInt8 8

/-- The memory of a `sockaddr_in`. -/
def SockaddrIn.bytes (m : SockaddrIn) : List UInt8 :=
  Collection.bytes 2 m.sinFamily.toNat ++ Collection.bytes 2 m.sinPort.toNat ++
    Collection.bytes 4 m.sinAddr.toNat ++ m.sinZero.toList

structure IPv4Address where
  addr : SockaddrIn

/-- `IPv4Address::IPv4Address`; `AF_INET` is 2. -/
def IPv4Address.new (address port : UInt32) : IPv4Address where
  addr := {
    sinFamily := 2
    sinPort := (byteswapOnLittleEndian port).toUInt16
    sinAddr := byteswapOnLittleEndian address
    sinZero := .replicate 8 0 }

def IPv4Address.getAddr (a : IPv4Address) : List UInt8 := a.addr.bytes

def IPv4Address.getPort (a : IPv4Address) : UInt32 :=
  (byteswapOnLittleEndian a.addr.sinPort).toUInt32

def IPv4Address.setPort (a : IPv4Address) (v : UInt32) : IPv4Address where
  addr := { a.addr with sinPort := (byteswapOnLittleEndian v).toUInt16 }

/-- `IPv4Address::insert`. -/
def IPv4Address.insert (a : IPv4Address) : String :=
  let addr := byteswapOnLittleEndian a.addr.sinAddr
  toString ((addr >>> 24) &&& 0xff) ++ "." ++ toString ((addr >>> 16) &&& 0xff) ++ "." ++
    toString ((addr >>> 8) &&& 0xff) ++ "." ++ toString (addr &&& 0xff) ++ ":" ++
    toString (byteswapOnLittleEndian a.addr.sinPort)

/-! ## IPv6 -/

/-- `sockaddr_in6`. -/
structure SockaddrIn6 where
  sin6Family : UInt16
  sin6Port : UInt16
  sin6Flowinfo : UInt32
  s6Addr : Vector UInt8 16
  sin6ScopeId : UInt32

/-- The memory of a `sockaddr_in6`. -/
def SockaddrIn6.bytes (m : SockaddrIn6) : List UInt8 :=
  Collection.bytes 2 m.sin6Family.toNat ++ Collection.bytes 2 m.sin6Port.toNat ++
    Collection.bytes 4 m.sin6Flowinfo.toNat ++ m.s6Addr.toList ++
    Collection.bytes 4 m.sin6ScopeId.toNat

structure IPv6Address where
  addr : SockaddrIn6

/-- `IPv6Address::IPv6Address(address, port)`; `AF_INET6` is 10. -/
def IPv6Address.new (address : Vector UInt8 16) (port : UInt32) : IPv6Address where
  addr := {
    sin6Family := 10
    sin6Port := (byteswapOnLittleEndian port).toUInt16
    sin6Flowinfo := 0
    s6Addr := address
    sin6ScopeId := 0 }

def IPv6Address.getAddr (a : IPv6Address) : List UInt8 := a.addr.bytes

def IPv6Address.getPort (a : IPv6Address) : UInt32 :=
  (byteswapOnLittleEndian a.addr.sin6Port).toUInt32

def IPv6Address.setPort (a : IPv6Address) (v : UInt32) : IPv6Address where
  addr := { a.addr with sin6Port := (byteswapOnLittleEndian v).toUInt16 }

/-- `(uint16_t*)s6_addr`. -/
def words : List UInt8 → List UInt16
  | low :: high :: rest => UInt16.ofNat (ofBytes [low, high]) :: words rest
  | _ => []

/-- `os << std::hex << (int)value`. -/
def hex (value : Nat) : List Char := Nat.toDigits 16 value

/-- The loop of `IPv6Address::insert` from an index on, with the text it prints and
`used_zeros`; `prev` is `addr[i - 1]` unless the index is 0. -/
def insertGroups (prev : Option UInt16) (usedZeros : Bool) : List UInt16 → List Char × Bool
  | [] => ([], usedZeros)
  | word :: rest =>
      if word = 0 ∧ usedZeros = false then insertGroups (some word) usedZeros rest
      else
        let ends := prev = some 0 ∧ usedZeros = false
        let r := insertGroups (some word) (usedZeros || ends) rest
        ((if ends then [':'] else []) ++ (if prev.isSome then [':'] else []) ++
          hex (byteswapOnLittleEndian word).toNat ++ r.1, r.2)

/-- What `IPv6Address::insert` prints between the brackets. -/
def addressText (words : List UInt16) : List Char :=
  let r := insertGroups none false words
  r.1 ++ if r.2 = false ∧ words.getLast? = some 0 then [':', ':'] else []

/-- `IPv6Address::insert`. -/
def IPv6Address.insert (a : IPv6Address) : String :=
  "[" ++ String.ofList (addressText (words a.addr.s6Addr.toList)) ++ "]:" ++
    toString (byteswapOnLittleEndian a.addr.sin6Port)

/-! ## Both families -/

/-- An address as the constructors take it. -/
inductive Host where
  | v4 (address : UInt32)
  | v6 (address : Vector UInt8 16)

inductive IPAddress where
  | v4 (a : IPv4Address)
  | v6 (a : IPv6Address)

def IPAddress.new (host : Host) (port : UInt32) : IPAddress :=
  match host with
  | .v4 address => .v4 (.new address port)
  | .v6 address => .v6 (.new address port)

def IPAddress.getAddr : IPAddress → List UInt8
  | .v4 a => a.getAddr
  | .v6 a => a.getAddr

def IPAddress.getPort : IPAddress → UInt32
  | .v4 a => a.getPort
  | .v6 a => a.getPort

def IPAddress.setPort (v : UInt32) : IPAddress → IPAddress
  | .v4 a => .v4 (a.setPort v)
  | .v6 a => .v6 (a.setPort v)

def IPAddress.insert : IPAddress → String
  | .v4 a => a.insert
  | .v6 a => a.insert

def Host.text : Host → String
  | .v4 address =>
      let n := address.toNat
      toString (n / 2 ^ 24) ++ "." ++ toString (n / 2 ^ 16 % 256) ++ "." ++
        toString (n / 2 ^ 8 % 256) ++ "." ++ toString (n % 256)
  | .v6 address => "[" ++ String.ofList (addressText (words address.toList)) ++ "]"

theorem IPAddress.setPort_new (host : Host) (p q : UInt32) :
    (new host p).setPort q = new host q := by
  cases host <;> rfl

def Host.front : Host → List UInt8
  | .v4 _ => bytes 2 2
  | .v6 _ => bytes 2 10

def Host.back : Host → List UInt8
  | .v4 address => bytes 4 (byteswapOnLittleEndian address).toNat ++ List.replicate 8 0
  | .v6 address => bytes 4 0 ++ address.toList ++ bytes 4 0

theorem Host.length_front (host : Host) : host.front.length = 2 := by
  cases host <;> exact length_bytes _ _

theorem IPAddress.getAddr_new (host : Host) (port : UInt32) :
    (new host port).getAddr =
      host.front ++ (bytes 2 (byteswapOnLittleEndian port).toUInt16.toNat ++ host.back) := by
  cases host with
  | v4 address =>
      simp only [new, getAddr, IPv4Address.getAddr, SockaddrIn.bytes, IPv4Address.new,
        Host.front, Host.back, List.append_assoc, Vector.toList_replicate]
      rfl
  | v6 address =>
      simp only [new, getAddr, IPv6Address.getAddr, SockaddrIn6.bytes, IPv6Address.new,
        Host.front, Host.back, List.append_assoc]
      rfl

theorem IPAddress.getAddr_port (host : Host) (port : UInt32) :
    ((new host port).getAddr.drop 2).take 2 =
      bytes 2 (byteswapOnLittleEndian port).toUInt16.toNat := by
  rw [getAddr_new, List.drop_left' host.length_front, List.take_left' (length_bytes 2 _)]

theorem IPAddress.getAddr_others (host : Host) (port : UInt32) :
    (new host port).getAddr.take 2 = host.front ∧ (new host port).getAddr.drop 4 = host.back := by
  rw [getAddr_new]
  refine ⟨List.take_left' host.length_front, ?_⟩
  rw [← List.append_assoc]
  exact List.drop_left' (by rw [List.length_append, host.length_front, length_bytes])

theorem toNat_byte (value k : UInt32) (hk : k.toNat < 32) :
    ((value >>> k) &&& 0xff).toNat = value.toNat / 2 ^ k.toNat % 256 := by
  have hmask : (0xff : UInt32).toNat = 2 ^ 8 - 1 := rfl
  rw [UInt32.toNat_and, UInt32.toNat_shiftRight, Nat.mod_eq_of_lt hk, hmask,
    Nat.and_two_pow_sub_one_eq_mod, Nat.shiftRight_eq_div_pow]

theorem IPAddress.insert_new (host : Host) (port : UInt32) :
    (new host port).insert =
      host.text ++ ":" ++ toString (swapBytes 2 (byteswapOnLittleEndian port).toUInt16.toNat) := by
  rw [← byteswap16_toNat]
  cases host with
  | v4 address =>
      have hlt := address.toNat_lt
      have hlow : (address &&& 0xff).toNat = address.toNat % 256 := by
        have h := toNat_byte address 0 (by decide)
        simpa using h
      have hhigh : address.toNat / 2 ^ 24 % 256 = address.toNat / 2 ^ 24 := by omega
      have htext : ∀ x : UInt32, toString x = toString x.toNat := fun _ => rfl
      simp only [new, insert, IPv4Address.insert, IPv4Address.new, byteswap32_byteswap32, htext,
        toNat_byte address 24 (by decide), toNat_byte address 16 (by decide),
        toNat_byte address 8 (by decide), hlow, Host.text]
      rw [← hhigh]
      rfl
  | v6 address =>
      have hclose : "]:" = "]" ++ ":" := by decide
      simp only [new, insert, IPv6Address.insert, IPv6Address.new, Host.text, hclose,
        String.append_assoc]
      rfl

end Sylar.Address
