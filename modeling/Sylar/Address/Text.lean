import Sylar.Address.IPv6Text
import Sylar.Address.Order
import Sylar.Address.Port

/-! # The texts of IP addresses, read back

`toString` of an `IPv4Address` or an `IPv6Address` with a reader for both forms. The text has
the whole address and the port that `getPort` returns, so two addresses have one text exactly if
`operator==` takes them for the same.
-/

namespace Sylar.Address

open Collection Rfc4291

/-! ## A reader -/

def readNumber (text : List Char) : Option Nat :=
  if text ≠ [] ∧ text.all Char.isDigit then some (Nat.ofDigitChars 10 text 0) else none

def readDotted (text : List Char) : Option UInt32 := do
  match ← (text.splitOn '.').mapM readNumber with
  | [a, b, c, d] =>
      if a < 256 ∧ b < 256 ∧ c < 256 ∧ d < 256 then
        some (UInt32.ofNat (a * 2 ^ 24 + b * 2 ^ 16 + c * 2 ^ 8 + d))
      else none
  | _ => none

def ofGroups (gs : List Nat) : List UInt8 :=
  gs.flatMap fun g => [UInt8.ofNat (g / 256), UInt8.ofNat (g % 256)]

/-- The two text forms of an IPv6 address. -/
def readGroupsText (text : List Char) : Option (Vector UInt8 16) := do
  let gs ← expand text
  if h : (ofGroups gs).length = 16 then some ⟨(ofGroups gs).toArray, by simpa using h⟩ else none

def readV4 (text : List Char) : Option (Host × Nat) := do
  let address ← readDotted (text.takeWhile (· ≠ ':'))
  let port ← readNumber (text.dropWhile (· ≠ ':')).tail
  return (.v4 address, port)

/-- An IPv6 address, and behind `]:` a port. -/
def readV6 (text : List Char) : Option (Host × Nat) := do
  let address ← readGroupsText (text.takeWhile (· ≠ ']'))
  let port ← readNumber ((text.dropWhile (· ≠ ']')).drop 2)
  return (.v6 address, port)

/-- Both forms; brackets are those of an IPv6 address. -/
def readText (text : String) : Option (Host × Nat) :=
  match text.toList with
  | '[' :: rest => readV6 rest
  | rest => readV4 rest

/-! ## Numbers -/

theorem readNumber_toDigits (n : Nat) : readNumber (Nat.toDigits 10 n) = some n := by
  have hne : Nat.toDigits 10 n ≠ [] := Nat.toDigits_ne_nil
  have hall : (Nat.toDigits 10 n).all Char.isDigit = true :=
    List.all_eq_true.mpr fun c hc => Nat.isDigit_of_mem_toDigits (by decide) (by decide) hc
  rw [readNumber, if_pos ⟨hne, hall⟩, Nat.ofDigitChars_ten_toDigits]

theorem toList_toString (n : Nat) : (toString n).toList = Nat.toDigits 10 n := by
  rw [Nat.toString_eq_repr, Nat.toList_repr]

theorem not_mem_toDigits {c : Char} (hc : c.isDigit = false) (n : Nat) :
    c ∉ Nat.toDigits 10 n := by
  intro hmem
  rw [Nat.isDigit_of_mem_toDigits (by decide) (by decide) hmem] at hc
  cases hc

/-- What stands before the first separator, and what from it on. -/
theorem takeWhile_before {c : Char} {front : List Char} (hfront : c ∉ front) (back : List Char) :
    (front ++ c :: back).takeWhile (· ≠ c) = front ∧
      (front ++ c :: back).dropWhile (· ≠ c) = c :: back := by
  have hall : ∀ x ∈ front, decide (x ≠ c) = true := fun x hx =>
    decide_eq_true fun heq => hfront (heq ▸ hx)
  rw [List.takeWhile_append_of_pos hall, List.dropWhile_append_of_pos hall,
    List.takeWhile_cons_of_neg (by simp), List.dropWhile_cons_of_neg (by simp), List.append_nil]
  exact ⟨rfl, rfl⟩

/-! ## Hosts -/

def dottedText (address : UInt32) : List Char :=
  ['.'].intercalate ([address.toNat / 2 ^ 24, address.toNat / 2 ^ 16 % 256,
    address.toNat / 2 ^ 8 % 256, address.toNat % 256].map (Nat.toDigits 10))

theorem readDotted_dottedText (address : UInt32) :
    readDotted (dottedText address) = some address := by
  have hlt := address.toNat_lt
  have hfields : ∀ (values : List Nat), (values.map (Nat.toDigits 10)).mapM readNumber =
      some values := by
    intro values
    induction values with
    | nil => rfl
    | cons n values ih =>
        rw [List.map_cons, List.mapM_cons, readNumber_toDigits, ih]
        rfl
  have hsplit : (dottedText address).splitOn '.' = _ :=
    List.splitOn_intercalate '.' (fun field hfield => by
      obtain ⟨n, -, rfl⟩ := List.mem_map.mp hfield
      exact not_mem_toDigits (by decide) n) (List.cons_ne_nil _ _)
  rw [readDotted, hsplit, hfields]
  dsimp only [bind, Option.bind]
  rw [if_pos (by omega)]
  congr 1
  apply UInt32.toNat_inj.mp
  rw [UInt32.toNat_ofNat', Nat.mod_eq_of_lt] <;> omega

theorem ofGroups_groups {bytes : List UInt8} (heven : bytes.length % 2 = 0) :
    ofGroups (groups bytes) = bytes := by
  induction bytes using words.induct with
  | case1 high low rest ih =>
      have hlow := low.toNat_lt
      have hrest : rest.length % 2 = 0 := by simpa [Nat.add_assoc] using heven
      have hhigh : (256 * high.toNat + low.toNat) / 256 = high.toNat := by omega
      have hmod : (256 * high.toNat + low.toNat) % 256 = low.toNat := by omega
      rw [groups, ofGroups, List.flatMap_cons, hhigh, hmod, UInt8.ofNat_toNat, UInt8.ofNat_toNat]
      exact congrArg (fun rest => high :: low :: rest) (ih hrest)
  | case2 bytes h =>
      rcases bytes with _ | ⟨b, _ | ⟨b', bytes⟩⟩
      · rfl
      · cases heven
      · exact absurd rfl (h b b' bytes)

theorem readGroupsText_addressText (address : Vector UInt8 16) :
    readGroupsText (addressText (words address.toList)) = some address := by
  have hread : expand (addressText (words address.toList)) = some (groups address.toList) :=
    expand_words (IPv6Address.new address 0)
  have hbytes : ofGroups (groups address.toList) = address.toList :=
    ofGroups_groups (by rw [Vector.length_toList])
  have hlen : (ofGroups (groups address.toList)).length = 16 := by
    rw [hbytes, Vector.length_toList]
  rw [readGroupsText, hread]
  dsimp only [bind, Option.bind]
  rw [dif_pos hlen]
  congr 1
  apply Vector.toList_inj.mp
  simpa using hbytes

theorem mem_dottedText {address : UInt32} {c : Char} (hc : c ∈ dottedText address) :
    c = '.' ∨ c.isDigit = true := by
  have hdigit : ∀ n, c ∈ Nat.toDigits 10 n → c.isDigit = true := fun n =>
    Nat.isDigit_of_mem_toDigits (by decide) (by decide)
  simp only [dottedText, List.map_cons, List.map_nil, List.intercalate_cons_cons,
    List.intercalate_singleton, List.mem_append, List.mem_singleton] at hc
  obtain (h | h) | (h | h) | (h | h) | h := hc
  · exact .inr (hdigit _ h)
  · exact .inl h
  · exact .inr (hdigit _ h)
  · exact .inl h
  · exact .inr (hdigit _ h)
  · exact .inl h
  · exact .inr (hdigit _ h)

/-! ## Addresses -/

theorem getPort_stored (host : Host) (port : UInt32) :
    (IPAddress.new host port).getPort.toNat =
      swapBytes 2 (byteswapOnLittleEndian port).toUInt16.toNat := by
  rw [← byteswap16_toNat]
  cases host <;> exact UInt16.toNat_toUInt32 _

theorem toList_insert (host : Host) (port : UInt32) :
    (IPAddress.new host port).insert.toList =
      host.text.toList ++ ':' :: Nat.toDigits 10 (IPAddress.new host port).getPort.toNat := by
  rw [IPAddress.insert_new, getPort_stored, String.toList_append, String.toList_append,
    toList_toString]
  simp

theorem toList_text_v4 (address : UInt32) : (Host.v4 address).text.toList = dottedText address := by
  simp [Host.text, dottedText, List.intercalate]

theorem readV4_text (address : UInt32) (port : Nat) :
    readV4 (dottedText address ++ ':' :: Nat.toDigits 10 port) = some (.v4 address, port) := by
  have hcolon : ':' ∉ dottedText address := fun hmem => by
    obtain heq | hdigit := mem_dottedText hmem
    · cases heq
    · cases hdigit
  obtain ⟨hbefore, hbehind⟩ := takeWhile_before hcolon (Nat.toDigits 10 port)
  rw [readV4, hbefore, hbehind, readDotted_dottedText, List.tail_cons, readNumber_toDigits]
  rfl

theorem readV6_text (address : Vector UInt8 16) (port : Nat) :
    readV6 (addressText (words address.toList) ++ ']' :: ':' :: Nat.toDigits 10 port) =
      some (.v6 address, port) := by
  have hformed := wellFormed_of_expand (expand_words (IPv6Address.new address 0))
  have hclose : ']' ∉ addressText (words address.toList) := fun hmem => by
    obtain heq | hdigit := hformed.colon_or_digit _ hmem
    · cases heq
    · revert hdigit
      decide
  obtain ⟨hbefore, hbehind⟩ := takeWhile_before hclose (':' :: Nat.toDigits 10 port)
  rw [readV6, hbefore, hbehind, readGroupsText_addressText, List.drop_succ_cons,
    List.drop_succ_cons, List.drop_zero, readNumber_toDigits]
  rfl

theorem readText_insert (host : Host) (port : UInt32) :
    readText (IPAddress.new host port).insert =
      some (host, (IPAddress.new host port).getPort.toNat) := by
  unfold readText
  rw [toList_insert]
  cases host with
  | v4 address =>
      rw [toList_text_v4]
      split
      · rename_i rest hrest
        have hopen : '[' ∈ dottedText address ++
            ':' :: Nat.toDigits 10 (IPAddress.new (.v4 address) port).getPort.toNat :=
          hrest ▸ List.mem_cons_self
        obtain hmem | hmem := List.mem_append.mp hopen
        · obtain heq | hdigit := mem_dottedText hmem
          · cases heq
          · cases hdigit
        · obtain heq | hmem := List.mem_cons.mp hmem
          · cases heq
          · exact absurd hmem (not_mem_toDigits (by decide) _)
      · exact readV4_text address _
  | v6 address =>
      have htext : (Host.v6 address).text.toList =
          '[' :: (addressText (words address.toList) ++ [']']) := by simp [Host.text]
      rw [htext, List.cons_append, List.append_assoc, List.singleton_append]
      exact readV6_text address _

/-! ## Equality -/

def IPAddress.toAddress : IPAddress → Address
  | .v4 a => a.toAddress
  | .v6 a => a.toAddress

theorem IPAddress.key_toAddress (a : IPAddress) : a.toAddress.key = unsigned a.getAddr := by
  cases a with
  | v4 a =>
      have hlen : a.getAddr.length = 16 := by simp [IPv4Address.getAddr, SockaddrIn.bytes]
      exact congrArg unsigned (List.take_of_length_le hlen.le)
  | v6 a =>
      have hlen : a.getAddr.length = 28 := by simp [IPv6Address.getAddr, SockaddrIn6.bytes]
      exact congrArg unsigned (List.take_of_length_le hlen.le)

theorem bytes_inj {n x x' : Nat} (hx : x < 256 ^ n) (hx' : x' < 256 ^ n)
    (h : bytes n x = bytes n x') : x = x' := by
  have hvalue := congrArg ofBytes h
  rwa [ofBytes_bytes, ofBytes_bytes, Nat.mod_eq_of_lt hx, Nat.mod_eq_of_lt hx'] at hvalue

theorem Host.eq_of_memory {host host' : Host} (hfront : host'.front = host.front)
    (hback : host'.back = host.back) : host' = host := by
  cases host' with
  | v4 address' =>
      cases host with
      | v4 address =>
          have hbytes := (List.append_inj hback (by rw [length_bytes, length_bytes])).1
          have hswapped := bytes_inj (UInt32.toNat_lt _) (UInt32.toNat_lt _) hbytes
          have haddress := congrArg byteswapOnLittleEndian (UInt32.toNat_inj.mp hswapped)
          rw [byteswap32_byteswap32, byteswap32_byteswap32] at haddress
          rw [haddress]
      | v6 address =>
          have hfamily : bytes 2 2 ≠ bytes 2 10 := by decide
          exact absurd hfront hfamily
  | v6 address' =>
      cases host with
      | v4 address =>
          have hfamily : bytes 2 10 ≠ bytes 2 2 := by decide
          exact absurd hfront hfamily
      | v6 address =>
          simp only [Host.back, List.append_assoc] at hback
          have hrest := (List.append_inj hback (by rw [length_bytes])).2
          have haddress := (List.append_inj hrest (by
            rw [Vector.length_toList, Vector.length_toList])).1
          rw [Vector.toList_inj.mp haddress]

/-- The memory of an address is that of another one with the same host and stored port only. -/
theorem getAddr_inj {host host' : Host} {port port' : UInt32} :
    (IPAddress.new host' port').getAddr = (IPAddress.new host port).getAddr ↔
      host' = host ∧
        (byteswapOnLittleEndian port').toUInt16 = (byteswapOnLittleEndian port).toUInt16 := by
  rw [IPAddress.getAddr_new, IPAddress.getAddr_new]
  constructor
  · intro h
    obtain ⟨hfront, h⟩ := List.append_inj h (by rw [host.length_front, host'.length_front])
    obtain ⟨hport, hback⟩ := List.append_inj h (by rw [length_bytes, length_bytes])
    exact ⟨Host.eq_of_memory hfront hback,
      UInt16.toNat_inj.mp (bytes_inj (UInt16.toNat_lt _) (UInt16.toNat_lt _) hport)⟩
  · rintro ⟨rfl, hport⟩
    rw [hport]

theorem stored_of_getPort {host : Host} {port port' : UInt32}
    (h : (IPAddress.new host port').getPort.toNat = (IPAddress.new host port).getPort.toNat) :
    (byteswapOnLittleEndian port').toUInt16 = (byteswapOnLittleEndian port).toUInt16 := by
  rw [getPort_stored, getPort_stored] at h
  have hswap := congrArg (swapBytes 2) h
  have hlt : ∀ stored : UInt16, stored.toNat < 256 ^ 2 := fun stored => stored.toNat_lt
  rw [swapBytes_swapBytes, swapBytes_swapBytes, Nat.mod_eq_of_lt (hlt _),
    Nat.mod_eq_of_lt (hlt _)] at hswap
  exact UInt16.toNat_inj.mp hswap

/-- An address after calls of `setPort`. -/
def IPAddress.afterPorts (a : IPAddress) (ports : List UInt32) : IPAddress :=
  ports.foldl (fun a port => a.setPort port) a

theorem IPAddress.afterPorts_new (host : Host) (port : UInt32) (ports : List UInt32) :
    (new host port).afterPorts ports = new host (ports.getLastD port) := by
  induction ports generalizing port with
  | nil => rfl
  | cons q ports ih =>
      have hfirst : (new host port).afterPorts (q :: ports) = (new host q).afterPorts ports := by
        rw [afterPorts, List.foldl_cons, setPort_new]
        rfl
      rw [hfirst, ih, List.getLastD_cons]

/-- The text of an address is read back as its host and the port of `getPort`, and two addresses
have one text exactly if they are equal; so after any calls of `setPort`. -/
theorem text_identifies (host : Host) (port : UInt32) (ports : List UInt32) :
    readText ((IPAddress.new host port).afterPorts ports).insert =
        some (host, ((IPAddress.new host port).afterPorts ports).getPort.toNat) ∧
      ∀ host' port' ports',
        ((IPAddress.new host' port').afterPorts ports').insert =
            ((IPAddress.new host port).afterPorts ports).insert ↔
          ((IPAddress.new host' port').afterPorts ports').toAddress.eq
            ((IPAddress.new host port).afterPorts ports).toAddress = true := by
  rw [IPAddress.afterPorts_new]
  generalize ports.getLastD port = port
  refine ⟨readText_insert host port, fun host' port' ports' => ?_⟩
  rw [IPAddress.afterPorts_new]
  generalize ports'.getLastD port' = port'
  rw [Address.eq_iff_key, IPAddress.key_toAddress, IPAddress.key_toAddress, unsigned, unsigned,
    (List.map_injective_iff.mpr fun _ _ => UInt8.toNat_inj.mp).eq_iff, getAddr_inj]
  constructor
  · intro htext
    have hread := congrArg readText htext
    rw [readText_insert, readText_insert, Option.some.injEq, Prod.mk.injEq] at hread
    obtain ⟨rfl, hport⟩ := hread
    exact ⟨rfl, stored_of_getPort hport⟩
  · rintro ⟨rfl, hport⟩
    rw [IPAddress.insert_new, IPAddress.insert_new, hport]

example : readText "[1::2:0]:80" =
    some (.v6 #v[0, 1, 0, 0, 0, 0, 0, 0, 0, 0, 0, 0, 0, 2, 0, 0], 80) :=
  rfl

end Sylar.Address
