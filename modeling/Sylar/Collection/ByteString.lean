import Mathlib

/-! # The order of byte strings

Byte strings as lists of unsigned numbers in lexicographic order, `memcmp` on two pieces of
memory, and the comparison of two strings by their common length first.
-/

namespace Sylar.Collection

/-! ## A common prefix, then the length -/

/-- The lexicographic order compares the common length, and a proper prefix comes first. -/
theorem lt_iff_take {α : Type*} [LinearOrder α] {l l' : List α} {n : Nat}
    (hn : n = min l.length l'.length) :
    l < l' ↔ l.take n < l'.take n ∨ l.take n = l'.take n ∧ l.length < l'.length := by
  induction l generalizing l' n with
  | nil => cases l' <;> simp [hn]
  | cons a l ih =>
      cases l' with
      | nil => simp [hn]
      | cons a' l' =>
          have hcommon : n = min l.length l'.length + 1 := by
            rw [hn, List.length_cons, List.length_cons, Nat.succ_min_succ]
          subst hcommon
          rw [List.take_succ_cons, List.take_succ_cons, List.cons_lt_cons_iff,
            List.cons_lt_cons_iff, ih rfl, List.cons.injEq, List.length_cons, List.length_cons,
            Nat.succ_lt_succ_iff]
          tauto

/-- Two lists that agree on the common length are the same if none is longer. -/
theorem eq_iff_take {α : Type*} {l l' : List α} {n : Nat} (hn : n = l.length) :
    l = l' ↔ l.length = l'.length ∧ l.take n = l'.take n := by
  constructor
  · rintro rfl
    exact ⟨rfl, rfl⟩
  · rintro ⟨hlen, htake⟩
    rwa [List.take_of_length_le hn.ge, List.take_of_length_le (hlen ▸ hn.ge)] at htake

/-! ## `memcmp` -/

def unsigned (s : List UInt8) : List ℕ := s.map UInt8.toNat

@[simp] theorem length_unsigned (s : List UInt8) : (unsigned s).length = s.length :=
  List.length_map _

theorem unsigned_take (s : List UInt8) (n : Nat) :
    unsigned (s.take n) = (unsigned s).take n := List.map_take

/-- `memcmp(s, t, n)`: the first bytes that differ decide, as unsigned numbers. -/
def memcmp : List UInt8 → List UInt8 → Nat → Int
  | a :: s, b :: t, n + 1 => if a = b then memcmp s t n else (a.toNat : Int) - b.toNat
  | _, _, _ => 0

@[simp] theorem memcmp_zero (s t : List UInt8) : memcmp s t 0 = 0 := by
  cases s <;> cases t <;> rfl

theorem memcmp_cons (a b : UInt8) (s t : List UInt8) (n : Nat) :
    memcmp (a :: s) (b :: t) (n + 1) =
      if a = b then memcmp s t n else (a.toNat : Int) - b.toNat := rfl

theorem memcmp_swap (s t : List UInt8) (n : Nat) : memcmp t s n = -memcmp s t n := by
  induction n generalizing s t with
  | zero => simp
  | succ n ih =>
      cases s with
      | nil => cases t <;> rfl
      | cons a s =>
          cases t with
          | nil => rfl
          | cons b t =>
              rw [memcmp_cons, memcmp_cons]
              by_cases hab : a = b
              · rw [if_pos hab, if_pos hab.symm, ih]
              · rw [if_neg hab, if_neg (Ne.symm hab), Int.neg_sub]

/-- A negative result is the lexicographic order of the bytes compared. -/
theorem memcmp_neg_iff {s t : List UInt8} {n : Nat} (hs : n ≤ s.length) (ht : n ≤ t.length) :
    memcmp s t n < 0 ↔ unsigned (s.take n) < unsigned (t.take n) := by
  induction n generalizing s t with
  | zero => simp
  | succ n ih =>
      obtain ⟨a, s, rfl⟩ := List.exists_cons_of_length_pos (Nat.lt_of_lt_of_le n.succ_pos hs)
      obtain ⟨b, t, rfl⟩ := List.exists_cons_of_length_pos (Nat.lt_of_lt_of_le n.succ_pos ht)
      have hrest := ih (Nat.le_of_succ_le_succ hs) (Nat.le_of_succ_le_succ ht)
      rw [memcmp_cons, List.take_succ_cons, List.take_succ_cons]
      simp only [unsigned, List.map_cons, List.cons_lt_cons_iff]
      by_cases hab : a = b
      · subst hab
        rw [if_pos rfl, hrest]
        simp [unsigned]
      · have hne : a.toNat ≠ b.toNat := fun h => hab (UInt8.toNat_inj.mp h)
        rw [if_neg hab]
        simp only [hne, false_and, or_false]
        omega

theorem memcmp_pos_iff {s t : List UInt8} {n : Nat} (hs : n ≤ s.length) (ht : n ≤ t.length) :
    0 < memcmp s t n ↔ unsigned (t.take n) < unsigned (s.take n) := by
  rw [← memcmp_neg_iff ht hs, memcmp_swap s t]
  omega

theorem memcmp_eq_zero_iff {s t : List UInt8} {n : Nat} (hs : n ≤ s.length)
    (ht : n ≤ t.length) : memcmp s t n = 0 ↔ unsigned (s.take n) = unsigned (t.take n) := by
  rw [eq_iff_le_not_lt, ← not_lt, memcmp_pos_iff hs ht, memcmp_neg_iff hs ht, not_lt, not_lt]
  exact le_antisymm_iff.symm

end Sylar.Collection
