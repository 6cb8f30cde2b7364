/-
  Ddm.Pool.Endpoint — from the host and port of a registration to the address
  `conn_connect` passes to `connect()`.

  The host is copied through `host_value[20]` of the record, the pool's and the
  connection's `host[100]`; `inet_pton` leaves the zeroed address alone when it fails,
  and nobody asks whether it did; `htons` takes the low 16 bits of the port. A node is
  found by its key, so its pool may be another registration's with that key. What
  answers at an address is a parameter.

  Proved: `inet_pton` reads exactly the dotted addresses (`inetPton_eq_some`), which no
  copy cuts; the address kept is the registration's if and only if it is a dotted
  address with a 16-bit port, or nothing accepts where the pool goes instead
  (`address_kept_iff`).
-/

import Ddm.Pool.Runs
import Ddm.Registry.Keys

namespace Ddm.Pool

open Ddm.Lib Registry

/-! ## Addresses -/

structure InAddr where
  a : UInt8
  b : UInt8
  c : UInt8
  d : UInt8
  deriving DecidableEq

/-- INADDR_ANY, what `bzero` leaves. -/
def InAddr.any : InAddr := ⟨0, 0, 0, 0⟩

structure SockaddrIn where
  sinAddr : InAddr
  sinPort : UInt16
  deriving DecidableEq

def octetText (n : UInt8) : Bytes := decimalBytes n.toNat

/-- The text that denotes an address. -/
def dotted (x : InAddr) : Bytes :=
  octetText x.a ++ 46 :: (octetText x.b ++ 46 :: (octetText x.c ++ 46 :: octetText x.d))

/-- A number up to 255 in decimal, without leading zeros. -/
def octet (s : Bytes) : Option UInt8 := ((List.range 256).map UInt8.ofNat).find? fun n => octetText n = s

/-- `inet_pton(AF_INET, …)`: four octets with dots between them. -/
def inetPton (s : CStr) : Option InAddr :=
  match s.chars.splitOn 46 with
  | [a, b, c, d] => do some ⟨← octet a, ← octet b, ← octet c, ← octet d⟩
  | _ => none

/-- The argument is a `uint16_t`. -/
def htons (port : Int) : UInt16 := .ofInt port

theorem octet_eq_some {s : Bytes} {n : UInt8} : octet s = some n ↔ s = octetText n := by
  have hinj : ∀ m : UInt8, octetText m = octetText n → m = n := fun m h => by
    have := decimal_injective (CStr.ext h : decimal m.toNat = decimal n.toNat)
    exact UInt8.toNat_inj.mp (by omega)
  constructor
  · intro h
    have hn : octetText n = s := by simpa using List.find?_some h
    exact hn.symm
  · intro h
    subst h
    cases hf : octet (octetText n) with
    | none =>
      have hn : n ∈ (List.range 256).map UInt8.ofNat :=
        List.mem_map.mpr ⟨n.toNat, List.mem_range.mpr n.toNat_lt, by simp⟩
      exact absurd (List.find?_eq_none.mp hf n hn) (by simp)
    | some m =>
      have hm : octetText m = octetText n := by simpa using List.find?_some hf
      rw [hinj m hm]

theorem octetText_spec : ∀ n < 256, 46 ∉ octetText (UInt8.ofNat n) ∧ 35 ∉ octetText (UInt8.ofNat n) ∧
    (octetText (UInt8.ofNat n)).length ≤ 3 := by
  decide +kernel

theorem octetText_clean (n : UInt8) : 46 ∉ octetText n ∧ 35 ∉ octetText n ∧ (octetText n).length ≤ 3 := by
  have h := octetText_spec n.toNat n.toNat_lt
  rwa [UInt8.ofNat_toNat] at h

theorem dotted_eq (x : InAddr) :
    dotted x = [46].intercalate [octetText x.a, octetText x.b, octetText x.c, octetText x.d] := by
  simp [dotted, List.intercalate]

/-- The parts of a dotted address are its octets. -/
theorem splitOn_dotted (x : InAddr) :
    (dotted x).splitOn 46 = [octetText x.a, octetText x.b, octetText x.c, octetText x.d] := by
  rw [dotted_eq]
  refine List.splitOn_intercalate 46 ?_ (by simp)
  intro l hl
  simp only [List.mem_cons, List.not_mem_nil, or_false] at hl
  rcases hl with rfl | rfl | rfl | rfl
  · exact (octetText_clean _).1
  · exact (octetText_clean _).1
  · exact (octetText_clean _).1
  · exact (octetText_clean _).1

theorem inetPton_eq_some {s : CStr} {x : InAddr} : inetPton s = some x ↔ s.chars = dotted x := by
  constructor
  · intro h
    unfold inetPton at h
    split at h
    · rename_i a b c d hs
      obtain ⟨xa, ha, h⟩ := Option.bind_eq_some_iff.mp h
      obtain ⟨xb, hb, h⟩ := Option.bind_eq_some_iff.mp h
      obtain ⟨xc, hc, h⟩ := Option.bind_eq_some_iff.mp h
      obtain ⟨xd, hd, h⟩ := Option.bind_eq_some_iff.mp h
      obtain rfl := Option.some.inj h
      rw [dotted_eq, ← octet_eq_some.mp ha, ← octet_eq_some.mp hb, ← octet_eq_some.mp hc, ← octet_eq_some.mp hd, ← hs,
        List.intercalate_splitOn]
    · cases h
  · intro h
    have hself : ∀ n : UInt8, octet (octetText n) = some n := fun n => octet_eq_some.mpr rfl
    simp only [inetPton, h, splitOn_dotted, hself]
    rfl

theorem length_dotted (x : InAddr) : (dotted x).length ≤ 15 := by
  have ha := (octetText_clean x.a).2.2
  have hb := (octetText_clean x.b).2.2
  have hc := (octetText_clean x.c).2.2
  have hd := (octetText_clean x.d).2.2
  simp only [dotted, List.length_append, List.length_cons]
  omega

/-- An address is shorter than any of the copies. -/
theorem inetPton_take {n : Nat} (h : 15 < n) (s : CStr) : inetPton (s.take n) = inetPton s := by
  by_cases hs : s.length ≤ n
  · rw [CStr.take_of_length_le hs]
  · -- neither the text nor its start denotes an address
    have hno : ∀ t : CStr, n ≤ t.length → inetPton t = none := fun t ht => by
      refine Option.eq_none_iff_forall_not_mem.mpr fun x hx => ?_
      have hlen := congrArg List.length (inetPton_eq_some.mp hx)
      have hle := length_dotted x
      have : n ≤ t.chars.length := ht
      omega
    rw [hno s (by omega), hno _ (by rw [CStr.length_take]; omega)]

/-! ## The way of a registration -/

structure PoolConfig where
  timeoutSecs : Int
  initConnNum : Int
  minConnNum : Int
  maxConnNum : Int
  maxIdleSecs : Int
  deriving DecidableEq

/-- The record of a provider's registration. -/
def recordOf (r : Registration) : RegisterInfo := registerInfoPadding r.group r.service r.version r.host r.port 0

/-- The key under which `node_resource_add` looks for the node. -/
def nodeKeyOf (r : Registration) : CharBuf nodeKeyLen :=
  nodeResourceConstructKey (recordOf r).hostValue.str (recordOf r).portValue nodeKeyLen

variable {κ : Type} [Inhabited κ]

/-- The pool `node_resource_add` makes for the record. -/
def nodePool (h : Heap κ) (r : Registration) (config : PoolConfig) (now : Timeval) (results : List Connect) :
    PoolObj × Heap κ :=
  poolInit h (recordOf r).hostValue.str (recordOf r).portValue config.timeoutSecs config.initConnNum config.minConnNum
    config.maxConnNum config.maxIdleSecs now results

/-- The address `conn_connect` fills in. -/
def sockaddr (a : Address) : SockaddrIn := ⟨(inetPton a.host.str).getD .any, htons a.port⟩

/-- `conn_connect` in a network: what the socket is connected to, and the return code. -/
def connConnectIn (net : SockaddrIn → Connect) (h : Heap κ) (conn : Nat) (now : Timeval) : Option SockaddrIn × Int :=
  let pin := sockaddr (h.conns conn).address
  let (ret, _) := connConnect h conn (net pin) now
  (if ret = 0 then some pin else none, ret)

/-- The host is a dotted address and the port fits 16 bits. -/
def Denotes (r : Registration) (dest : SockaddrIn) : Prop :=
  r.host.chars = dotted dest.sinAddr ∧ r.port = dest.sinPort.toNat

variable (κ) in
/-- A connection of this pool goes where the registration says, or nowhere. -/
structure AddressKept (net : SockaddrIn → Connect) (r : Registration) (pool : PoolObj) : Prop where
  kept : ∀ dest, Denotes r dest → ∀ (h : Heap κ) conn now, (h.conns conn).address = pool.address →
    (connConnectIn net h conn now).2 = 0 → (connConnectIn net h conn now).1 = some dest
  refused : (¬∃ dest, Denotes r dest) → ∀ (h : Heap κ) conn now, (h.conns conn).address = pool.address →
    (connConnectIn net h conn now).2 ≠ 0

/-- Where a pool made for the registration goes. -/
def target (r : Registration) : SockaddrIn := ⟨(inetPton r.host).getD .any, htons r.port⟩

theorem poolInitLoop_address (pool : PoolObj) (h : Heap κ) (now : Timeval) (results : List Connect) :
    (poolInitLoop pool h now results).1.address = pool.address := by
  induction results generalizing pool h with
  | nil => rfl
  | cons r results ih =>
    rw [poolInitLoop, ih]
    split
    · rfl
    · rfl

theorem nodePool_address (h : Heap κ) (r : Registration) (config : PoolConfig) (now : Timeval)
    (results : List Connect) :
    (nodePool h r config now results).1.address =
      ⟨snprintf hostNameLen (recordOf r).hostValue.str, (recordOf r).portValue⟩ :=
  poolInitLoop_address ..

/-- The two copies cut no address. -/
theorem sockaddr_nodePool (h : Heap κ) (r : Registration) (config : PoolConfig) (now : Timeval)
    (results : List Connect) : sockaddr (nodePool h r config now results).1.address = target r := by
  have hhost : inetPton (snprintf hostNameLen (recordOf r).hostValue.str).str = inetPton r.host := by
    show inetPton ((r.host.take (fieldHostLen - 1)).take (hostNameLen - 1)) = _
    rw [inetPton_take (by decide), inetPton_take (by decide)]
  rw [nodePool_address, sockaddr, target, hhost]
  rfl

theorem target_of_denotes {r : Registration} {dest : SockaddrIn} (h : Denotes r dest) : target r = dest := by
  obtain ⟨ha, hp⟩ := h
  have hport : htons r.port = dest.sinPort := by
    refine UInt16.toNat_inj.mp ?_
    have := dest.sinPort.toNat_lt
    rw [hp]
    show ((dest.sinPort.toNat : Int) % 2 ^ 16).toNat % 2 ^ 16 = _
    omega
  rw [target, inetPton_eq_some.mpr ha, hport]
  rfl

/-! ## The node's key -/

theorem length_decimal {n : Nat} (h : n < 2 ^ 16) : (decimal n).length ≤ 5 := by
  have hd : (Nat.toDigits 10 n).length ≤ 5 := (Nat.length_toDigits_le_iff (by decide) (by decide)).mpr (by omega)
  show (decimalBytes n).length ≤ 5
  rw [decimalBytes, if_neg (by omega), List.nil_append, List.length_map, Int.natAbs_natCast]
  exact hd

theorem noSep_decimal (n : Int) : NoSep (decimal n) := fun h => by
  rcases decimalBytes_mem h with h | h
  · exact absurd h (by decide)
  · exact absurd h (by decide)

theorem noSep_dotted (x : InAddr) : sep ∉ dotted x := by
  have hs : sep = 35 := rfl
  simp only [dotted, List.mem_append, List.mem_cons, hs, (octetText_clean _).2.1, false_or, or_false]
  decide

/-- The node found for a dotted address and a port was made for the same two. -/
theorem target_of_nodeKey {r made : Registration} {dest : SockaddrIn} (h : Denotes r dest)
    (hkey : nodeKeyOf made = nodeKeyOf r) : target made = target r := by
  have hfield : fieldHostLen = 20 := rfl
  have hkeyLen : nodeKeyLen = 26 := rfl
  obtain ⟨ha, hp⟩ := h
  have hlen : r.host.length ≤ 15 := by rw [CStr.length, ha]; exact length_dotted _
  have hhost : (recordOf r).hostValue.str = r.host := snprintf_str (by omega)
  have hnosep : NoSep r.host := by
    show sep ∉ r.host.chars
    rw [ha]
    exact noSep_dotted _
  set text := nodeKeyText (recordOf made).hostValue.str made.port with htext
  have hshort : (nodeKeyText r.host r.port).length ≤ 21 := by
    have := length_decimal dest.sinPort.toNat_lt
    rw [length_nodeKeyText, hp]
    omega
  -- neither key is cut
  have hcut : text.take (nodeKeyLen - 1) = nodeKeyText r.host r.port := by
    have hr : (nodeKeyOf r).str = nodeKeyText r.host r.port := by
      rw [nodeKeyOf, hhost]
      exact snprintf_str (show (nodeKeyText r.host r.port).length < nodeKeyLen by omega)
    rw [← hr, ← hkey]
    rfl
  have hwhole : text.length ≤ nodeKeyLen - 1 := by
    have := congrArg CStr.length hcut
    rw [CStr.length_take] at this
    omega
  rw [CStr.take_of_length_le hwhole] at hcut
  have hnosep' : NoSep (recordOf made).hostValue.str := by
    have hc := congrArg (fun t => t.chars.count sep) hcut
    simp only [htext, chars_nodeKeyText, List.count_append, List.count_cons_self,
      List.count_eq_zero_of_not_mem (noSep_decimal _), List.count_eq_zero_of_not_mem hnosep] at hc
    exact List.count_eq_zero.mp (by omega)
  obtain ⟨hh, hport⟩ := nodeKeyText_injective hnosep' hnosep hcut
  have hmade : inetPton made.host = inetPton r.host := by
    rw [← hh]
    exact (inetPton_take (by decide) made.host).symm
  rw [target, target, hmade, hport]

/-! ## Where the connections of a node's pool go -/

/-- An attempt succeeds where the network accepts. -/
theorem connConnectIn_eq {net : SockaddrIn → Connect} {h : Heap κ} {conn : Nat} {pin : SockaddrIn} (now : Timeval)
    (hpin : sockaddr (h.conns conn).address = pin) :
    ((connConnectIn net h conn now).2 = 0 ↔ net pin = .accepted) ∧
      ((connConnectIn net h conn now).2 = 0 → (connConnectIn net h conn now).1 = some pin) := by
  subst hpin
  refine ⟨(connConnect_spec h conn _ now).2.2, fun h0 => ?_⟩
  exact if_pos h0

/-- A registration that denotes no address is refused only where nothing accepts. -/
theorem refused_of_kept {net : SockaddrIn → Connect} {r made : Registration} {h₀ : Heap κ} {config : PoolConfig}
    {now : Timeval} {results : List Connect} (hk : AddressKept κ net r (nodePool h₀ made config now results).1)
    (hno : ¬∃ dest, Denotes r dest) : net (target made) ≠ .accepted := by
  intro hacc
  set pool := (nodePool h₀ made config now results).1 with hpool
  -- a connection of the pool, as `conn_init` leaves it
  have haddr : ((allocConn h₀ (connInit pool.host.str pool.port 0)).conns h₀.nextConn).address = pool.address := by
    show (Function.update h₀.conns h₀.nextConn _ h₀.nextConn).address = _
    rw [Function.update_self, connInit, ConnObj.address, PoolObj.address]
    exact congrArg (Address.mk · pool.port) (snprintf_fit pool.host)
  refine hk.refused hno _ h₀.nextConn now haddr ?_
  refine (connConnectIn_eq now ?_).1.mpr hacc
  rw [haddr, hpool]
  exact sockaddr_nodePool ..

theorem kept_of_denotes (net : SockaddrIn → Connect) {r made : Registration} (hkey : nodeKeyOf made = nodeKeyOf r)
    (h₀ : Heap κ) (config : PoolConfig) (now : Timeval) (results : List Connect)
    (hd : (∃ dest, Denotes r dest) ∨ net (target made) ≠ .accepted) :
    AddressKept κ net r (nodePool h₀ made config now results).1 := by
  refine ⟨fun dest hden h conn now' haddr h0 => ?_, fun hno h conn now' haddr h0 => ?_⟩
  · have hpin : sockaddr (h.conns conn).address = dest := by
      rw [haddr, sockaddr_nodePool, target_of_nodeKey hden hkey, target_of_denotes hden]
    exact (connConnectIn_eq now' hpin).2 h0
  · have hpin : sockaddr (h.conns conn).address = target made := by rw [haddr, sockaddr_nodePool]
    rcases hd with hd | hd
    · exact hno hd
    · exact hd ((connConnectIn_eq now' hpin).1.mp h0)

theorem address_kept_iff (net : SockaddrIn → Connect) {r made : Registration} (hkey : nodeKeyOf made = nodeKeyOf r)
    (h₀ : Heap κ) (config : PoolConfig) (now : Timeval) (results : List Connect) :
    AddressKept κ net r (nodePool h₀ made config now results).1 ↔
      (∃ dest, Denotes r dest) ∨ net (target made) ≠ .accepted := by
  constructor
  · intro hk
    by_cases hd : ∃ dest, Denotes r dest
    · exact Or.inl hd
    · exact Or.inr (refused_of_kept hk hd)
  · intro hd
    exact kept_of_denotes net hkey h₀ config now results hd

/-- In every network exactly if the host is a dotted address and the port one of 16 bits. -/
theorem address_kept_everywhere {r made : Registration} (hkey : nodeKeyOf made = nodeKeyOf r) (h₀ : Heap κ)
    (config : PoolConfig) (now : Timeval) (results : List Connect) :
    (∀ net, AddressKept κ net r (nodePool h₀ made config now results).1) ↔ ∃ dest, Denotes r dest := by
  constructor
  · intro hall
    -- a network that accepts everything
    by_contra hno
    exact refused_of_kept (hall fun _ => .accepted) hno rfl
  · intro hden net
    exact kept_of_denotes net hkey h₀ config now results (Or.inl hden)

def sampleConfig : PoolConfig := ⟨3, 1, 1, 6, 60⟩

/-- A provider that registers an address, and one that registers a name. -/
def dottedProvider : Registration := ⟨.lit "g", .lit "s", .lit "v", .lit "10.0.0.1", 8080⟩

def namedProvider : Registration := ⟨.lit "g", .lit "s", .lit "v", .lit "localhost", 8080⟩

theorem address_kept_iff_sample : AddressKept Unit (fun _ => .accepted) dottedProvider
    (nodePool (Linked.freshHeap : Heap Unit) dottedProvider sampleConfig ⟨0, 0⟩ [.accepted]).1 :=
  (address_kept_iff (fun _ => .accepted) rfl Linked.freshHeap sampleConfig ⟨0, 0⟩ [.accepted]).mpr
    (Or.inl ⟨⟨⟨10, 0, 0, 1⟩, 8080⟩, by decide, by decide⟩)

/-- Connections to `localhost` go to 0.0.0.0 instead. -/
theorem named_host_goes_elsewhere : ¬AddressKept Unit (fun _ => .accepted) namedProvider
    (nodePool (Linked.freshHeap : Heap Unit) namedProvider sampleConfig ⟨0, 0⟩ [.accepted]).1 := by
  intro h
  refine refused_of_kept h (fun hd => ?_) rfl
  obtain ⟨dest, ha, -⟩ := hd
  have hnone : inetPton namedProvider.host = none := by decide
  rw [inetPton_eq_some.mpr ha] at hnone
  cases hnone

end Ddm.Pool
