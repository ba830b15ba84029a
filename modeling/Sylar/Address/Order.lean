import Sylar.Address.IPAddress
import Sylar.Address.Unix
import Sylar.Collection.ByteString
import Sylar.Collection.OrderedSet

/-! # `Address` and its comparisons

The comparisons read the memory at `getAddr()` as far as `getAddrLen()` says, of whatever class
the two addresses are. They compare the byte strings in lexicographic order.
-/

namespace Sylar

open Collection

/-! ## The base class -/

/-- The memory at `getAddr()`, and `getAddrLen()`, which does not leave it. -/
structure Address where
  getAddr : List UInt8
  getAddrLen : UInt32
  readable : getAddrLen.toNat ≤ getAddr.length

/-- `Address::operator<` -/
def Address.lt (a rhs : Address) : Bool :=
  let minlen := min a.getAddrLen rhs.getAddrLen
  let result := memcmp a.getAddr rhs.getAddr minlen.toNat
  if result < 0 then true
  else if 0 < result then false
  else if a.getAddrLen < rhs.getAddrLen then true
  else false

/-- `Address::operator==` -/
def Address.eq (a rhs : Address) : Bool :=
  decide (a.getAddrLen = rhs.getAddrLen) &&
    decide (memcmp a.getAddr rhs.getAddr a.getAddrLen.toNat = 0)

/-- `Address::operator!=` -/
def Address.ne (a rhs : Address) : Bool := !a.eq rhs

/-! ## Its classes -/

namespace Address

/-- `sizeof(sockaddr_in)` -/
def IPv4Address.getAddrLen (_ : IPv4Address) : UInt32 := 16

def IPv4Address.toAddress (a : IPv4Address) : Address where
  getAddr := a.getAddr
  getAddrLen := a.getAddrLen
  readable := by simp [getAddr, getAddrLen, SockaddrIn.bytes]

/-- `sizeof(sockaddr_in6)` -/
def IPv6Address.getAddrLen (_ : IPv6Address) : UInt32 := 28

def IPv6Address.toAddress (a : IPv6Address) : Address where
  getAddr := a.getAddr
  getAddrLen := a.getAddrLen
  readable := by simp [getAddr, getAddrLen, SockaddrIn6.bytes]

/-- `UnixAddress::UnixAddress()`; `MAX_PATH_LEN` is one less than the size of `sun_path`. -/
def UnixAddress.init : UnixAddress where
  sunFamily := 1
  sunPath := .replicate sunPathSize 0
  length := UInt32.ofNat (sunPathOffset + (sunPathSize - 1))

/-- The memory of a `sockaddr_un`. -/
def UnixAddress.getAddr (a : UnixAddress) : List UInt8 :=
  Collection.bytes 2 a.sunFamily.toNat ++ a.sunPath.toList

/-- An address whose length stays in `sockaddr_un`. -/
def UnixAddress.toAddress (a : UnixAddress)
    (h : a.getAddrLen.toNat ≤ sunPathOffset + sunPathSize) : Address where
  getAddr := a.getAddr
  getAddrLen := a.getAddrLen
  readable := by simpa [getAddr, sunPathOffset] using h

/-- `sockaddr` -/
structure UnknowAddress where
  saFamily : UInt16
  saData : Vector UInt8 14

def UnknowAddress.new (family : Int32) : UnknowAddress where
  saFamily := family.toUInt32.toUInt16
  saData := .replicate 14 0

/-- `sizeof(sockaddr)` -/
def UnknowAddress.getAddrLen (_ : UnknowAddress) : UInt32 := 16

def UnknowAddress.getAddr (a : UnknowAddress) : List UInt8 :=
  Collection.bytes 2 a.saFamily.toNat ++ a.saData.toList

def UnknowAddress.toAddress (a : UnknowAddress) : Address where
  getAddr := a.getAddr
  getAddrLen := a.getAddrLen
  readable := by simp [getAddr, getAddrLen]

/-! ## The byte string -/

def key (a : Address) : List ℕ := unsigned (a.getAddr.take a.getAddrLen.toNat)

theorem length_key (a : Address) : a.key.length = a.getAddrLen.toNat := by
  rw [key, length_unsigned, List.length_take, Nat.min_eq_left a.readable]

theorem take_key (a : Address) {n : Nat} (hn : n ≤ a.getAddrLen.toNat) :
    a.key.take n = unsigned (a.getAddr.take n) := by
  rw [key, ← unsigned_take, List.take_take, Nat.min_eq_left hn]

theorem toNat_min (x y : UInt32) : (min x y).toNat = min x.toNat y.toNat := by
  change (if x ≤ y then x else y).toNat = min x.toNat y.toNat
  split
  · rename_i hle
    exact (Nat.min_eq_left (UInt32.le_iff_toNat_le.mp hle)).symm
  · rename_i hgt
    have hlt : y.toNat < x.toNat := Nat.lt_of_not_le fun hle => hgt (UInt32.le_iff_toNat_le.mpr hle)
    exact (Nat.min_eq_right hlt.le).symm

theorem lt_compares : Compares lt key := by
  intro a b
  have hmin : (min a.getAddrLen b.getAddrLen).toNat = min a.key.length b.key.length := by
    rw [toNat_min, a.length_key, b.length_key]
  have ha : (min a.getAddrLen b.getAddrLen).toNat ≤ a.getAddrLen.toNat := by
    rw [toNat_min]
    exact Nat.min_le_left _ _
  have hb : (min a.getAddrLen b.getAddrLen).toNat ≤ b.getAddrLen.toNat := by
    rw [toNat_min]
    exact Nat.min_le_right _ _
  have hneg := memcmp_neg_iff (ha.trans a.readable) (hb.trans b.readable)
  have hpos := memcmp_pos_iff (ha.trans a.readable) (hb.trans b.readable)
  have hzero := memcmp_eq_zero_iff (ha.trans a.readable) (hb.trans b.readable)
  rw [lt_iff_take hmin, a.take_key ha, b.take_key hb, ← hneg, ← hzero, a.length_key,
    b.length_key, ← UInt32.lt_iff_toNat_lt]
  unfold lt
  dsimp only
  split
  · rename_i hlt
    exact iff_of_true rfl (.inl hlt)
  · rename_i hge
    split
    · rename_i hgt
      exact iff_of_false Bool.noConfusion (by omega)
    · rename_i hle
      have hsame : memcmp a.getAddr b.getAddr (min a.getAddrLen b.getAddrLen).toNat = 0 := by omega
      simp [hsame]

theorem eq_iff_key (a b : Address) : a.eq b = true ↔ a.key = b.key := by
  rw [eq, Bool.and_eq_true, decide_eq_true_iff, decide_eq_true_iff,
    eq_iff_take a.length_key.symm, a.length_key, b.length_key, UInt32.toNat_inj]
  refine and_congr_right fun hlen => ?_
  have hb : a.getAddrLen.toNat ≤ b.getAddrLen.toNat := (congrArg UInt32.toNat hlen).le
  rw [memcmp_eq_zero_iff a.readable (hb.trans b.readable), a.take_key le_rfl, b.take_key hb]

/-! ## Keys of ordered containers -/

/-- Addresses of any classes and lengths are ordered as the strings of their bytes, totally up to
equality, and a container finds an address exactly if an equal one was inserted. -/
theorem address_order :
    Compares lt key ∧ (∀ a b : Address, a.eq b = true ↔ a.key = b.key) ∧ OrdersKeys lt eq ∧
      (∀ a b : Address, a.ne b = true ↔ a.lt b = true ∨ b.lt a = true) ∧
      ∀ (inserted : List Address) (x : Address),
        (setFind lt x (setOf lt inserted)).isSome = true ↔ ∃ a ∈ inserted, a.eq x = true := by
  refine ⟨lt_compares, eq_iff_key, lt_compares.ordersKeys eq_iff_key, fun a b => ?_,
    fun inserted x => ?_⟩
  · have heq : a.eq b = false ↔ a.key ≠ b.key := by
      rw [← Bool.not_eq_true, eq_iff_key]
    rw [ne, Bool.not_eq_true', heq, lt_compares a b, lt_compares b a]
    exact ne_iff_lt_or_gt
  · rw [setFind_isSome lt_compares, key_setOf lt_compares]
    exact exists_congr fun a => and_congr_right fun _ => (eq_iff_key a x).symm

/-- The unknown address of family `AF_INET` is the same key as `0.0.0.0:0`. -/
example : (setOf lt [(IPv6Address.new (.replicate 16 0) 0).toAddress,
      (IPv4Address.new 0 0).toAddress, (UnknowAddress.new 2).toAddress,
      UnixAddress.init.toAddress (by decide)]).map getAddrLen = [109, 16, 28] := by
  decide

end Address

end Sylar
