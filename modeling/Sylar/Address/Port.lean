import Sylar.Address.IPAddress

/-! # Ports in network byte order

Constructors and `setPort` swap the port as a `uint32_t` and store it in a `uint16_t`, which
keeps the swapped high half. Reading and printing swap the stored half back.
-/

namespace Sylar.Address

open Collection

/-! ## What is stored -/

/-- The port that is read is the high half of the one that was given. -/
theorem IPAddress.getPort_new (host : Host) (port : UInt32) :
    ((new host port).getPort).toNat = port.toNat / 2 ^ 16 := by
  have hhigh : port.toNat / 2 ^ 16 < 256 ^ 2 := by
    have := port.toNat_lt
    omega
  have hread : swapBytes 2 (byteswapOnLittleEndian port).toUInt16.toNat = port.toNat / 2 ^ 16 := by
    rw [byteswap32_toUInt16, swapBytes_swapBytes, Nat.mod_eq_of_lt hhigh]
  rw [← hread, ← byteswap16_toNat]
  cases host <;> exact UInt16.toNat_toUInt32 _

theorem stored_of_port (port : UInt16) : (byteswapOnLittleEndian port.toUInt32).toUInt16 = 0 := by
  apply UInt16.toNat_inj.mp
  have hhigh : port.toUInt32.toNat / 2 ^ 16 = 0 := by
    rw [UInt16.toNat_toUInt32]
    exact Nat.div_eq_of_lt port.toNat_lt
  rw [byteswap32_toUInt16, hhigh]
  decide

/-! ## Sequences of calls -/

def IPAddress.setPorts (a : IPAddress) (ports : List UInt16) : IPAddress :=
  ports.foldl (fun a port => a.setPort port.toUInt32) a

theorem IPAddress.setPorts_new (host : Host) (port : UInt16) (ports : List UInt16) :
    (new host port.toUInt32).setPorts ports = new host (ports.getLastD port).toUInt32 := by
  induction ports generalizing port with
  | nil => rfl
  | cons q ports ih =>
      have hfirst : (new host port.toUInt32).setPorts (q :: ports) =
          (new host q.toUInt32).setPorts ports := by
        rw [setPorts, List.foldl_cons, setPort_new]
        rfl
      rw [hfirst, ih, List.getLastD_cons]

/-- The address has the port, in memory in network byte order, and is that of the constructor
otherwise. -/
structure IPAddress.HasPort (a : IPAddress) (host : Host) (initial port : UInt16) : Prop where
  getPort : a.getPort = port.toUInt32
  network : (a.getAddr.drop 2).take 2 = (bytes 2 port.toNat).reverse
  text : a.insert = host.text ++ ":" ++ toString port.toNat
  others : a.getAddr.take 2 = (new host initial.toUInt32).getAddr.take 2 ∧
    a.getAddr.drop 4 = (new host initial.toUInt32).getAddr.drop 4

/-- The last port survives exactly if it is 0. -/
theorem setPorts_hasPort_iff (host : Host) (port : UInt16) (ports : List UInt16) :
    ((IPAddress.new host port.toUInt32).setPorts ports).HasPort host port (ports.getLastD port) ↔
      ports.getLastD port = 0 := by
  rw [IPAddress.setPorts_new]
  generalize ports.getLastD port = last
  constructor
  · intro h
    have hread := IPAddress.getPort_new host last.toUInt32
    rw [h.getPort, UInt16.toNat_toUInt32, Nat.div_eq_of_lt last.toNat_lt] at hread
    exact UInt16.toNat_inj.mp hread
  · rintro rfl
    obtain ⟨hfront, hback⟩ := IPAddress.getAddr_others host port.toUInt32
    obtain ⟨hfront', hback'⟩ := IPAddress.getAddr_others host (0 : UInt16).toUInt32
    refine ⟨?_, ?_, ?_, hfront'.trans hfront.symm, hback'.trans hback.symm⟩
    · apply UInt32.toNat_inj.mp
      rw [IPAddress.getPort_new]
      decide
    · rw [IPAddress.getAddr_port, stored_of_port]
      decide
    · rw [IPAddress.insert_new, stored_of_port]
      rfl

/-- A constructor loses port 80 of either family, and `setPort` loses it again. -/
theorem port_lost :
    (IPAddress.new (.v4 0x7f000001) 80).getPort = 0 ∧
      (IPAddress.new (.v4 0x7f000001) 80).insert = "127.0.0.1:0" ∧
      ((IPAddress.new (.v6 (.replicate 16 0)) 0).setPort 443).getPort = 0 ∧
      ¬ ((IPAddress.new (.v4 0x7f000001) (0 : UInt16).toUInt32).setPorts [80]).HasPort
        (.v4 0x7f000001) 0 80 := by
  refine ⟨by decide, by decide, by decide, fun h => ?_⟩
  exact absurd h.getPort (by decide)

end Sylar.Address
