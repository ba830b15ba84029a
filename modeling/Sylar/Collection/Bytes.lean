import Mathlib

/-! # The bytes of a word

A word of `n` bytes in the memory of a little-endian host, least significant byte first, and
the word with its bytes in reverse order.
-/

namespace Sylar.Collection

/-- The word `x` of `n` bytes; higher bytes are cut off. -/
def bytes : Nat → Nat → List UInt8
  | 0, _ => []
  | n + 1, x => UInt8.ofNat x :: bytes n (x / 256)

/-- The word that the bytes make up. -/
def ofBytes : List UInt8 → Nat
  | [] => 0
  | b :: bs => b.toNat + 256 * ofBytes bs

@[simp] theorem length_bytes (n x : Nat) : (bytes n x).length = n := by
  induction n generalizing x with
  | zero => rfl
  | succ n ih => rw [bytes, List.length_cons, ih]

theorem bytes_ofBytes (bs : List UInt8) : bytes bs.length (ofBytes bs) = bs := by
  induction bs with
  | nil => rfl
  | cons b bs ih =>
      have hb : b.toNat < 256 := b.toNat_lt
      have hrest : (b.toNat + 256 * ofBytes bs) / 256 = ofBytes bs := by omega
      rw [List.length_cons, ofBytes, bytes, hrest, ih, List.cons.injEq]
      refine ⟨UInt8.toNat_inj.mp ?_, rfl⟩
      rw [UInt8.toNat_ofNat']
      omega

theorem ofBytes_bytes (n x : Nat) : ofBytes (bytes n x) = x % 256 ^ n := by
  induction n generalizing x with
  | zero => rw [bytes, ofBytes, pow_zero, Nat.mod_one]
  | succ n ih =>
      have hsplit : x % 256 ^ (n + 1) = x % 256 + 256 * (x / 256 % 256 ^ n) := by
        rw [Nat.pow_succ', Nat.mod_mul]
      rw [bytes, ofBytes, ih, UInt8.toNat_ofNat', hsplit]

theorem ofBytes_lt (bs : List UInt8) : ofBytes bs < 256 ^ bs.length := by
  have h := ofBytes_bytes bs.length (ofBytes bs)
  rw [bytes_ofBytes] at h
  rw [h]
  exact Nat.mod_lt _ (by positivity)

theorem take_bytes (m k x : Nat) : (bytes (m + k) x).take m = bytes m x := by
  induction m generalizing x with
  | zero => rw [List.take_zero, bytes]
  | succ m ih => rw [Nat.succ_add, bytes, List.take_succ_cons, ih, bytes]

theorem drop_bytes (m k x : Nat) : (bytes (m + k) x).drop k = bytes m (x / 256 ^ k) := by
  induction k generalizing x with
  | zero => rw [List.drop_zero, pow_zero, Nat.div_one, Nat.add_zero]
  | succ k ih =>
      rw [← Nat.add_assoc, bytes, List.drop_succ_cons, ih, Nat.div_div_eq_div_mul,
        ← Nat.pow_succ']

/-! ## The reverse order -/

def swapBytes (n x : Nat) : Nat := ofBytes (bytes n x).reverse

theorem bytes_swapBytes (n x : Nat) : bytes n (swapBytes n x) = (bytes n x).reverse := by
  have h := bytes_ofBytes (bytes n x).reverse
  rwa [List.length_reverse, length_bytes] at h

theorem swapBytes_lt (n x : Nat) : swapBytes n x < 256 ^ n := by
  have h := ofBytes_lt (bytes n x).reverse
  rwa [List.length_reverse, length_bytes] at h

theorem swapBytes_swapBytes (n x : Nat) : swapBytes n (swapBytes n x) = x % 256 ^ n := by
  rw [swapBytes, bytes_swapBytes, List.reverse_reverse, ofBytes_bytes]

theorem swapBytes_mod (m k x : Nat) :
    swapBytes (m + k) x % 256 ^ m = swapBytes m (x / 256 ^ k) := by
  have hlow : bytes m (swapBytes (m + k) x) = (bytes m (x / 256 ^ k)).reverse := by
    rw [← take_bytes m k, bytes_swapBytes, ← drop_bytes m k, List.take_reverse, length_bytes,
      Nat.add_sub_cancel_left]
  rw [← ofBytes_bytes, hlow, swapBytes]

end Sylar.Collection
