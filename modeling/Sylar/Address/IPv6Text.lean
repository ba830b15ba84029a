import Sylar.Address.IPAddress
import Sylar.Address.Rfc4291
import Sylar.Collection.Runs

/-! # The text of an IPv6 address

`IPv6Address::insert` writes the groups before the first run of zeros, `::` for that run and the
groups behind it, among them any later zeros. Read back by the rules for the text form, that is
the stored address.
-/

namespace Sylar.Address

open Collection Rfc4291

def printed (word : UInt16) : List Char := hex (byteswapOnLittleEndian word).toNat

/-- Once `used_zeros` is set, every group is printed behind a colon. -/
theorem insertGroups_used (prev : UInt16) (ws : List UInt16) :
    insertGroups (some prev) true ws = (ws.flatMap fun w => ':' :: printed w, true) := by
  induction ws generalizing prev with
  | nil => rfl
  | cons w ws ih =>
      rw [insertGroups, if_neg (by simp)]
      simp only [Bool.true_or, ih w]
      simp [printed]

theorem insertGroups_behind (ws : List UInt16) (hhead : ws.head? ≠ some 0) :
    insertGroups (some 0) false ws =
      ((if ws = [] then [] else [':', ':']) ++ join (ws.map printed), decide (ws ≠ [])) := by
  cases ws with
  | nil => rfl
  | cons w ws =>
      have hw : w ≠ 0 := by simpa using hhead
      rw [insertGroups, if_neg (by simp [hw])]
      simp [insertGroups_used, join_cons, printed, List.flatMap_map]

theorem insertGroups_zeros (prev : Option UInt16) (count : Nat) (ws : List UInt16) :
    insertGroups prev false (List.replicate (count + 1) 0 ++ ws) =
      insertGroups (some 0) false ws := by
  induction count generalizing prev with
  | zero => rfl
  | succ count ih =>
      rw [List.replicate_succ, List.cons_append, insertGroups, if_pos ⟨rfl, rfl⟩]
      exact ih _

/-- The groups before a run of zeros, behind another group. -/
theorem insertGroups_next {prev : UInt16} {front : List UInt16} (hprev : prev ≠ 0)
    (hfront : 0 ∉ front) (ws : List UInt16) :
    ∃ last, last ≠ 0 ∧ insertGroups (some prev) false (front ++ ws) =
      ((front.flatMap fun w => ':' :: printed w) ++ (insertGroups (some last) false ws).1,
        (insertGroups (some last) false ws).2) := by
  induction front generalizing prev with
  | nil => exact ⟨prev, hprev, rfl⟩
  | cons w front ih =>
      rw [List.mem_cons, not_or] at hfront
      have hw : w ≠ 0 := fun h => hfront.1 h.symm
      obtain ⟨last, hlast, heq⟩ := ih hw hfront.2
      refine ⟨last, hlast, ?_⟩
      rw [List.cons_append, insertGroups, if_neg (by simp [hw])]
      simp [hprev, heq, printed]

/-- The groups before a run of zeros, from the start. -/
theorem insertGroups_front {front : List UInt16} (hfront : 0 ∉ front) (ws : List UInt16) :
    ∃ last, last ≠ some 0 ∧ insertGroups none false (front ++ ws) =
      (join (front.map printed) ++ (insertGroups last false ws).1,
        (insertGroups last false ws).2) := by
  cases front with
  | nil => exact ⟨none, by simp, rfl⟩
  | cons w front =>
      rw [List.mem_cons, not_or] at hfront
      have hw : w ≠ 0 := fun h => hfront.1 h.symm
      obtain ⟨last, hlast, heq⟩ := insertGroups_next hw hfront.2 ws
      refine ⟨some last, by simpa using hlast, ?_⟩
      rw [List.cons_append, insertGroups, if_neg (by simp [hw])]
      simp [heq, printed, join_cons, List.flatMap_map]

theorem addressText_full {ws : List UInt16} (hws : 0 ∉ ws) :
    addressText ws = join (ws.map printed) := by
  obtain ⟨last, -, heq⟩ := insertGroups_front hws []
  have hlast : ws.getLast? ≠ some 0 := fun h => hws (List.mem_of_getLast? h)
  rw [List.append_nil] at heq
  simp [addressText, heq, insertGroups, hlast]

theorem addressText_compressed {front back : List UInt16} (count : Nat)
    (hfront : 0 ∉ front) (hback : back.head? ≠ some 0) :
    addressText (front ++ (List.replicate (count + 1) 0 ++ back)) =
      join (front.map printed) ++ ':' :: ':' :: join (back.map printed) := by
  obtain ⟨last, -, heq⟩ := insertGroups_front hfront (List.replicate (count + 1) 0 ++ back)
  rw [insertGroups_zeros, insertGroups_behind back hback] at heq
  by_cases hnil : back = []
  · have hlast : (front ++ (List.replicate (count + 1) (0 : UInt16) ++ [])).getLast? = some 0 := by
      simp [List.getLast?_append, List.getLast?_replicate]
    subst hnil
    simp only [addressText, heq, hlast]
    simp [join]
  · simp [addressText, heq, hnil]

/-! ## What is printed is what is stored -/

def groups : List UInt8 → List Nat
  | high :: low :: rest => (256 * high.toNat + low.toNat) :: groups rest
  | _ => []

def group (word : UInt16) : Nat := (byteswapOnLittleEndian word).toNat

theorem group_lt (word : UInt16) : group word < 2 ^ 16 := UInt16.toNat_lt _

theorem map_group_words (bytes : List UInt8) : (words bytes).map group = groups bytes := by
  induction bytes using words.induct with
  | case1 low high rest ih =>
      have hlt : ofBytes [low, high] < 2 ^ 16 :=
        Nat.lt_of_lt_of_eq (ofBytes_lt [low, high]) (by norm_num)
      have hswap : group (UInt16.ofNat (ofBytes [low, high])) = 256 * low.toNat + high.toNat := by
        rw [group, byteswap16_toNat, UInt16.toNat_ofNat', Nat.mod_eq_of_lt hlt, swapBytes]
        have hbytes : Collection.bytes 2 (ofBytes [low, high]) = [low, high] :=
          bytes_ofBytes [low, high]
        rw [hbytes]
        simp [ofBytes]
        omega
      rw [words, List.map_cons, hswap, ih, groups]
  | case2 bytes h => simp [words, groups]

theorem length_words (bytes : List UInt8) : (words bytes).length = bytes.length / 2 := by
  induction bytes using words.induct with
  | case1 low high rest ih =>
      rw [words, List.length_cons, ih, List.length_cons, List.length_cons]
      omega
  | case2 bytes h =>
      rcases bytes with _ | ⟨b, _ | ⟨b', bytes⟩⟩
      · rfl
      · simp [words]
      · exact absurd rfl (h b b' bytes)

theorem groups_injective {bytes : List UInt8} (heven : bytes.length % 2 = 0) :
    ∀ {bytes' : List UInt8}, bytes.length = bytes'.length → groups bytes = groups bytes' →
      bytes = bytes' := by
  induction bytes using words.induct with
  | case1 high low rest ih =>
      intro bytes' hlen h
      rcases bytes' with _ | ⟨high', _ | ⟨low', rest'⟩⟩
      · cases hlen
      · cases hlen
      · rw [groups, groups, List.cons.injEq] at h
        have hlow := low.toNat_lt
        have hlow' := low'.toNat_lt
        have hrest : rest = rest' :=
          ih (by simpa [Nat.add_assoc] using heven) (by simpa using hlen) h.2
        rw [hrest, UInt8.toNat_inj.1 (by omega : high.toNat = high'.toNat),
          UInt8.toNat_inj.1 (by omega : low.toNat = low'.toNat)]
  | case2 bytes h =>
      intro bytes' hlen _
      rcases bytes with _ | ⟨b, _ | ⟨b', bytes⟩⟩
      · exact (List.length_eq_zero_iff.1 hlen.symm).symm
      · cases heven
      · exact absurd rfl (h b b' bytes)

/-- A run of groups is read back as the values stored. -/
theorem readGroups_printed (ws : List UInt16) :
    readGroups (join (ws.map printed)) = some (ws.map group) := by
  apply readGroups_join
  have hfields : ws.map printed = (ws.map group).map (Nat.toDigits 16) := by
    rw [List.map_map]
    rfl
  rw [hfields, mapM_readGroup_toDigits]
  intro n hn
  obtain ⟨w, -, rfl⟩ := List.mem_map.1 hn
  exact group_lt w

theorem expand_addressText {ws : List UInt16} (hlen : ws.length = 8) :
    expand (addressText ws) = some (ws.map group) := by
  by_cases hzeros : 0 ∈ ws
  · obtain ⟨front, count, back, rfl, hfront, hback⟩ := first_run hzeros
    simp only [List.length_append, List.length_replicate] at hlen
    have hsum : (front.map group).length + (back.map group).length < 8 := by
      simp only [List.length_map]
      omega
    have hcount : 8 - ((front.map group).length + (back.map group).length) = count + 1 := by
      simp only [List.length_map]
      omega
    have hzero : group 0 = 0 := by decide
    rw [addressText_compressed count hfront hback,
      expand_compressed (readGroups_printed front) (readGroups_printed back) hsum, hcount]
    simp [hzero]
  · rw [addressText_full hzeros]
    exact expand_full (readGroups_printed ws) (by rw [List.length_map, hlen])

def bracketed (text : String) : List Char :=
  ((text.toList.dropWhile (· ≠ '[')).drop 1).takeWhile (· ≠ ']')

theorem expand_words (a : IPv6Address) :
    expand (addressText (words a.addr.s6Addr.toList)) = some (groups a.addr.s6Addr.toList) := by
  have hlen : (words a.addr.s6Addr.toList).length = 8 := by
    rw [length_words, Vector.length_toList]
  rw [expand_addressText hlen, map_group_words]

theorem bracketed_insert (a : IPv6Address) :
    bracketed a.insert = addressText (words a.addr.s6Addr.toList) := by
  have hformed := wellFormed_of_expand (expand_words a)
  have hclose : ∀ c ∈ addressText (words a.addr.s6Addr.toList), decide (c ≠ ']') = true := by
    intro c hc
    rw [decide_eq_true_iff]
    rintro rfl
    rcases hformed.colon_or_digit _ hc with h | h
    · cases h
    · revert h
      decide
  have hchars : a.insert.toList =
      '[' :: (addressText (words a.addr.s6Addr.toList) ++
        (']' :: ':' :: (toString (byteswapOnLittleEndian a.addr.sin6Port)).toList)) := by
    simp [IPv6Address.insert]
  rw [bracketed, hchars, List.dropWhile_cons_of_neg (by simp), List.drop_one, List.tail_cons,
    List.takeWhile_append_of_pos hclose, List.takeWhile_cons_of_neg (by simp), List.append_nil]

/-- The text of an address is well formed and stands for the bytes of the address, so that two
addresses never have the same text. -/
theorem insert_denotes (a : IPv6Address) :
    WellFormed (bracketed a.insert) ∧
      expand (bracketed a.insert) = some (groups a.addr.s6Addr.toList) ∧
      ∀ b : IPv6Address,
        bracketed b.insert = bracketed a.insert ↔ b.addr.s6Addr = a.addr.s6Addr := by
  have hread := expand_words a
  simp only [bracketed_insert]
  refine ⟨wellFormed_of_expand hread, hread, fun b => ⟨fun heq => ?_, fun heq => by rw [heq]⟩⟩
  have hgroups : groups b.addr.s6Addr.toList = groups a.addr.s6Addr.toList := by
    have hread' := expand_words b
    rw [heq, hread] at hread'
    exact (Option.some.inj hread').symm
  rw [← Vector.toList_inj]
  exact groups_injective (by rw [Vector.length_toList])
    (by rw [Vector.length_toList, Vector.length_toList]) hgroups

end Sylar.Address
