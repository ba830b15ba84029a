import Mathlib

/-! # `UnixAddress`

The constructor copies the path into `sun_path` behind a test of its length. The test has its
sides exchanged: what fits is refused, and what does not fit is copied over the end of the array.
-/

namespace Sylar.Address

/-- `sizeof(sun_path)` -/
def sunPathSize : Nat := 108

/-- `offsetof(sockaddr_un, sun_path)` -/
def sunPathOffset : Nat := 2

/-- `sockaddr_un` and `m_length`; a `socklen_t` has 32 bits. -/
structure UnixAddress where
  sunFamily : UInt16
  sunPath : Vector UInt8 sunPathSize
  length : UInt32
deriving DecidableEq

/-- `memcpy` to the start of an array; nothing if it leaves one of the two arrays. -/
def memcpy {n : Nat} (dest : Vector UInt8 n) (src : List UInt8) (count : Nat) :
    Option (Vector UInt8 n) :=
  if h : count ≤ n ∧ count ≤ src.length then
    some ⟨(src.take count ++ dest.toList.drop count).toArray, by
      rw [List.size_toArray, List.length_append, List.length_take, List.length_drop,
        Vector.length_toList]
      omega⟩
  else none

/-- What becomes of a constructor call: a `std::logic_error`, a write over the end of `sun_path`,
or an address. -/
inductive Construction where
  | throws (what : String)
  | overrun
  | made (a : UnixAddress)
deriving DecidableEq

/-- `path.c_str()` with its terminator. -/
def cStr (path : List UInt8) : List UInt8 := path ++ [0]

/-- `m_length` in front of the test. -/
def copyLength (path : List UInt8) : UInt32 :=
  let length := UInt32.ofNat (path.length + 1)
  if path.head? = some 0 then length - 1 else length

/-- The constructor behind its test; `AF_UNIX` is 1. -/
def UnixAddress.copy (path : List UInt8) : Option UnixAddress :=
  (memcpy (Vector.replicate sunPathSize 0) (cStr path) (copyLength path).toNat).map fun sunPath =>
    { sunFamily := 1, sunPath, length := copyLength path + UInt32.ofNat sunPathOffset }

def UnixAddress.new (path : List UInt8) : Construction :=
  if (copyLength path).toNat ≤ sunPathSize then .throws "path too long"
  else
    match copy path with
    | some a => .made a
    | none => .overrun

def UnixAddress.getAddrLen (a : UnixAddress) : UInt32 := a.length

/-- The bytes of a C string; nothing if no terminator stands in the array. -/
def cString (memory : List UInt8) : Option (List UInt8) :=
  if (0 : UInt8) ∈ memory then some (memory.takeWhile (· ≠ 0)) else none

/-- `UnixAddress::insert`; nothing if it reads over the end of `sun_path`. -/
def UnixAddress.insert (a : UnixAddress) : Option (List UInt8) :=
  if sunPathOffset < a.length.toNat ∧ a.sunPath.toList.head? = some 0 then
    let count := a.length.toNat - sunPathOffset - 1
    if count < sunPathSize then some ("\\0".toUTF8.toList ++ (a.sunPath.toList.drop 1).take count)
    else none
  else cString a.sunPath.toList

/-! ## What a path asks for -/

/-- The bytes of `sun_path` that a path takes: an abstract one has no terminator. -/
def pathLength (path : List UInt8) : Nat :=
  if path.head? = some 0 then path.length else path.length + 1

def pathText (path : List UInt8) : List UInt8 :=
  if path.head? = some 0 then "\\0".toUTF8.toList ++ path.tail else path

/-- A path is refused exactly if it is too long, and otherwise kept in full. -/
structure Faithful (path : List UInt8) : Prop where
  throws : (∃ what, UnixAddress.new path = .throws what) ↔ sunPathSize < pathLength path
  bounded : UnixAddress.new path ≠ .overrun
  kept : ∀ a, UnixAddress.new path = .made a →
    a.getAddrLen.toNat = sunPathOffset + pathLength path ∧ a.insert = some (pathText path)

theorem copyLength_toNat (path : List UInt8) :
    (copyLength path).toNat = pathLength path % 2 ^ 32 := by
  unfold copyLength pathLength
  split
  · have hsub : UInt32.ofNat (path.length + 1) - 1 = UInt32.ofNat path.length := by
      rw [UInt32.ofNat_add]
      exact UInt32.add_sub_cancel _ 1
    rw [hsub, UInt32.toNat_ofNat']
  · rw [UInt32.toNat_ofNat']

theorem memcpy_toList {n : Nat} (dest : Vector UInt8 n) {src : List UInt8} {count : Nat}
    (hdest : count ≤ n) (hsrc : count ≤ src.length) :
    ∃ v, memcpy dest src count = some v ∧
      v.toList = src.take count ++ dest.toList.drop count := by
  rw [memcpy, dif_pos ⟨hdest, hsrc⟩]
  exact ⟨_, rfl, rfl⟩

theorem insert_abstract {a : UnixAddress} {rest memory : List UInt8}
    (hlen : a.length.toNat = sunPathOffset + (rest.length + 1)) (hfits : rest.length < sunPathSize)
    (hpath : a.sunPath.toList = 0 :: rest ++ memory) :
    a.insert = some ("\\0".toUTF8.toList ++ rest) := by
  have hcount : sunPathOffset + (rest.length + 1) - sunPathOffset - 1 = rest.length := by omega
  simp only [UnixAddress.insert, hlen, hpath, hcount]
  rw [if_pos ⟨by omega, rfl⟩, if_pos hfits, List.cons_append, List.drop_one, List.tail_cons,
    List.take_left' rfl]

theorem insert_pathname {a : UnixAddress} {path memory : List UInt8} (hne : path ≠ [])
    (hnul : 0 ∉ path) (hpath : a.sunPath.toList = path ++ 0 :: memory) :
    a.insert = some path := by
  have hkept : ∀ c ∈ path, decide (c ≠ 0) = true := by
    intro c hc
    rw [decide_eq_true_iff]
    exact fun hzero => hnul (hzero ▸ hc)
  have hfirst : a.sunPath.toList.head? ≠ some 0 := by
    rw [hpath, List.head?_append_of_ne_nil _ hne]
    exact fun hhead => hnul (List.mem_of_head? hhead)
  rw [UnixAddress.insert, if_neg (fun h => hfirst h.2), cString, hpath, if_pos (by simp),
    List.takeWhile_append_of_pos hkept, List.takeWhile_cons_of_neg (by simp), List.append_nil]

theorem copy_overruns {path : List UInt8} (h : sunPathSize < (copyLength path).toNat) :
    UnixAddress.copy path = none := by
  rw [UnixAddress.copy, memcpy, dif_neg (fun hfits => by omega), Option.map_none]

theorem new_eq (path : List UInt8) :
    UnixAddress.new path =
      if pathLength path % 2 ^ 32 ≤ sunPathSize then .throws "path too long" else .overrun := by
  rw [UnixAddress.new, ← copyLength_toNat]
  split
  · rfl
  · next hlong => rw [copy_overruns (by omega)]

/-- Behind its test the constructor keeps every path that fits. -/
theorem copy_keeps {path : List UInt8} (hne : path ≠ []) (hnul : 0 ∉ path.tail)
    (hfits : pathLength path ≤ sunPathSize) :
    ∃ a, UnixAddress.copy path = some a ∧
      a.getAddrLen.toNat = sunPathOffset + pathLength path ∧ a.insert = some (pathText path) := by
  have hcount : (copyLength path).toNat = pathLength path := by
    rw [copyLength_toNat]
    exact Nat.mod_eq_of_lt (Nat.lt_of_le_of_lt hfits (by decide))
  have hsrc : pathLength path ≤ (cStr path).length := by
    rw [cStr, List.length_append, List.length_singleton, pathLength]
    split <;> omega
  obtain ⟨v, hv, hbytes⟩ := memcpy_toList (.replicate sunPathSize 0) hfits hsrc
  have hlen : (copyLength path + UInt32.ofNat sunPathOffset).toNat =
      sunPathOffset + pathLength path := by
    have hoffset : (UInt32.ofNat sunPathOffset).toNat = sunPathOffset := by decide
    have hsmall : pathLength path + sunPathOffset < 2 ^ 32 :=
      Nat.lt_of_le_of_lt (Nat.add_le_add_right hfits _) (by decide)
    rw [UInt32.toNat_add, hcount, hoffset, Nat.mod_eq_of_lt hsmall, Nat.add_comm]
  refine ⟨{ sunFamily := 1, sunPath := v, length := copyLength path + UInt32.ofNat sunPathOffset },
    ?_, hlen, ?_⟩
  · rw [UnixAddress.copy, hcount, hv, Option.map_some]
  · obtain ⟨b, rest, rfl⟩ := List.exists_cons_of_ne_nil hne
    rw [List.tail_cons] at hnul
    by_cases hb : b = 0
    · subst hb
      have htake : (cStr (0 :: rest)).take (pathLength (0 :: rest)) = 0 :: rest :=
        List.take_left' List.length_cons
      rw [htake] at hbytes
      exact insert_abstract hlen hfits hbytes
    · -- a pathname is copied with its terminator
      have hhead : (b :: rest).head? ≠ some 0 := by simpa using hb
      have htake : (cStr (b :: rest)).take (pathLength (b :: rest)) = b :: rest ++ [0] :=
        List.take_of_length_le (by simp [cStr, pathLength, hb])
      rw [htake, List.append_assoc, List.singleton_append] at hbytes
      have hmem : 0 ∉ b :: rest := by
        rw [List.mem_cons, not_or]
        exact ⟨fun hzero => hb hzero.symm, hnul⟩
      rw [pathText, if_neg hhead]
      exact insert_pathname (by simp) hmem hbytes

/-- The constructor is right only for a length that is refused after wrapping around
`socklen_t`. -/
theorem faithful_iff (path : List UInt8) :
    Faithful path ↔ sunPathSize < pathLength path ∧ pathLength path % 2 ^ 32 ≤ sunPathSize := by
  constructor
  · intro h
    by_cases hfits : pathLength path % 2 ^ 32 ≤ sunPathSize
    · have hthrows : UnixAddress.new path = .throws "path too long" := by
        rw [new_eq, if_pos hfits]
      exact ⟨h.throws.1 ⟨_, hthrows⟩, hfits⟩
    · exact absurd (by rw [new_eq, if_neg hfits]) h.bounded
  · rintro ⟨hlong, hfits⟩
    have hthrows : UnixAddress.new path = .throws "path too long" := by
      rw [new_eq, if_pos hfits]
    refine ⟨⟨fun _ => hlong, fun _ => ⟨_, hthrows⟩⟩, ?_, ?_⟩
    · rw [hthrows]
      exact fun h => (by cases h)
    · intro a hmade
      rw [hthrows] at hmade
      cases hmade

/-- `/t` is refused, and 108 characters leave no place for the terminator. -/
theorem short_path_refused :
    UnixAddress.new [47, 116] = .throws "path too long" ∧ ¬ Faithful [47, 116] ∧
      UnixAddress.new (List.replicate 108 97) = .overrun ∧ ¬ Faithful (List.replicate 108 97) := by
  have hshort : UnixAddress.new [47, 116] = .throws "path too long" := by decide
  have hlong : UnixAddress.new (List.replicate 108 97) = .overrun := by decide
  refine ⟨hshort, fun h => ?_, hlong, fun h => h.bounded hlong⟩
  have hlen : sunPathSize < pathLength [47, 116] := h.throws.1 ⟨_, hshort⟩
  exact absurd hlen (by decide)

end Sylar.Address
