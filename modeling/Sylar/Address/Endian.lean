import Sylar.Collection.Bytes

/-! # `byteswap`

The template picks the swap by the width of its argument, and on a little-endian host
`byteswapOnLittleEndian` is `byteswap`.
-/

namespace Sylar.Address

open Collection

/-- `byteswap<T>`, for the widths that `enable_if` admits. -/
class Byteswap (T : Type) where
  byteswap : T → T

/-- `bswap_64` -/
instance : Byteswap UInt64 := ⟨fun value => UInt64.ofNat (swapBytes 8 value.toNat)⟩

/-- `bswap_32` -/
instance : Byteswap UInt32 := ⟨fun value => UInt32.ofNat (swapBytes 4 value.toNat)⟩

/-- `bswap_16` -/
instance : Byteswap UInt16 := ⟨fun value => UInt16.ofNat (swapBytes 2 value.toNat)⟩

def byteswapOnLittleEndian {T : Type} [Byteswap T] (t : T) : T := Byteswap.byteswap t

@[simp] theorem byteswap16_toNat (value : UInt16) :
    (byteswapOnLittleEndian value).toNat = swapBytes 2 value.toNat := by
  have hlt := swapBytes_lt 2 value.toNat
  exact UInt16.toNat_ofNat'.trans (Nat.mod_eq_of_lt hlt)

@[simp] theorem byteswap32_toNat (value : UInt32) :
    (byteswapOnLittleEndian value).toNat = swapBytes 4 value.toNat := by
  have hlt := swapBytes_lt 4 value.toNat
  exact UInt32.toNat_ofNat'.trans (Nat.mod_eq_of_lt hlt)

@[simp] theorem byteswap32_byteswap32 (value : UInt32) :
    byteswapOnLittleEndian (byteswapOnLittleEndian value) = value := by
  apply UInt32.toNat_inj.mp
  rw [byteswap32_toNat, byteswap32_toNat, swapBytes_swapBytes]
  exact Nat.mod_eq_of_lt value.toNat_lt

/-- A `uint32_t` that is swapped and then stored in a `uint16_t` keeps its high half. -/
theorem byteswap32_toUInt16 (value : UInt32) :
    (byteswapOnLittleEndian value).toUInt16.toNat = swapBytes 2 (value.toNat / 2 ^ 16) := by
  rw [UInt32.toNat_toUInt16, byteswap32_toNat]
  exact swapBytes_mod 2 2 value.toNat

end Sylar.Address
