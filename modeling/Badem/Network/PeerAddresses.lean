import Badem.Core.PeerContainer

/-!
# The addresses of peers

The code compares an address with the first and the last one of each reserved range.  Two of
its ranges end before their network does, and an address with a scope lies behind the last one.
-/

namespace Badem

open Containers

/-! ## Networks and ranges -/

/-- The addresses with the first bits of an address. -/
structure AddressNetwork where
  address : BitVec 128
  length : Nat
deriving DecidableEq

def AddressNetwork.Contains (n : AddressNetwork) (bytes : BitVec 128) : Prop :=
  bytes >>> (128 - n.length) = n.address >>> (128 - n.length)

instance AddressNetwork.decidableContains (n : AddressNetwork) (bytes : BitVec 128) :
    Decidable (n.Contains bytes) :=
  inferInstanceAs (Decidable (_ = _))

def AddressNetwork.mapped (address : BitVec 32) (length : Nat) : AddressNetwork :=
  ⟨mappedFromV4Bytes address, 96 + length⟩

def AddressRange.Covers (r : AddressRange) (bytes : BitVec 128) : Prop :=
  r.min ≤ bytes ∧ bytes ≤ r.max

def AddressRange.Spans (r : AddressRange) (n : AddressNetwork) : Prop :=
  r.min = n.address ∧ n.address.toNat % 2 ^ (128 - n.length) = 0 ∧
    r.max.toNat = n.address.toNat + (2 ^ (128 - n.length) - 1)

instance AddressRange.decidableSpans (r : AddressRange) (n : AddressNetwork) :
    Decidable (r.Spans n) :=
  inferInstanceAs (Decidable (_ ∧ _))

def AddressRange.Apart (r r' : AddressRange) : Prop := r.max < r'.min ∨ r'.max < r.min

instance AddressRange.decidableApart (r r' : AddressRange) : Decidable (r.Apart r') :=
  inferInstanceAs (Decidable (_ ∨ _))

instance AddressRange.symmApart : Std.Symm AddressRange.Apart := ⟨fun _ _ h => h.symm⟩

section Ranges

variable {r : AddressRange} {n : AddressNetwork} {bytes : BitVec 128} {scopeId : Nat}

theorem AddressRange.contains_iff :
    r.contains bytes scopeId = true ↔ r.Covers bytes ∧ ¬ (bytes = r.max ∧ scopeId ≠ 0) := by
  simp only [contains, lessV6, Covers, BitVec.le_def, BitVec.lt_def, ← BitVec.toNat_inj,
    Bool.and_eq_true, Bool.not_eq_true', Bool.or_eq_false_iff, Bool.and_eq_false_iff,
    decide_eq_false_iff_not, beq_eq_false_iff_ne, ne_eq]
  omega

theorem AddressRange.Spans.contains_iff (h : r.Spans n) : n.Contains bytes ↔ r.Covers bytes := by
  obtain ⟨hmin, hmod, hmax⟩ := h
  have hpos : 0 < 2 ^ (128 - n.length) := Nat.two_pow_pos _
  have haddress := Nat.div_add_mod n.address.toNat (2 ^ (128 - n.length))
  rw [AddressNetwork.Contains, Covers, ← BitVec.toNat_inj, BitVec.toNat_ushiftRight,
    BitVec.toNat_ushiftRight, Nat.shiftRight_eq_div_pow, Nat.shiftRight_eq_div_pow,
    BitVec.le_def, BitVec.le_def, hmin, hmax, Nat.div_eq_iff hpos]
  rw [hmod, Nat.add_zero, Nat.mul_comm] at haddress
  omega

theorem AddressRange.Apart.not_covers {r' : AddressRange} (h : r.Apart r')
    (hbytes : r'.Covers bytes) : ¬ r.Covers bytes := by
  simp only [Apart, Covers, BitVec.le_def, BitVec.lt_def] at *
  omega

end Ranges

/-! ## What the check lets through -/

/-- Loopback, private, shared, documentation, multicast and class E addresses, then `fc00::/7`,
`ff00::/8`, `100::/64` and `2001:db8::/32`. -/
def unwantedNetworks : List AddressNetwork :=
  [.mapped 0x7f000000 8, .mapped 0x0a000000 8, .mapped 0xac100000 12, .mapped 0xc0a80000 16,
    .mapped 0x64400000 10, .mapped 0xc0000200 24, .mapped 0xc6336400 24, .mapped 0xcb007100 24,
    .mapped 0xe0000000 4, .mapped 0xf0000000 4, ⟨0xfc000000000000000000000000000000, 7⟩,
    ⟨0xff000000000000000000000000000000, 8⟩, ⟨0x01000000000000000000000000000000, 64⟩,
    ⟨0x20010db8000000000000000000000000, 32⟩]

def IpAddress.bytes : IpAddress → BitVec 128
  | .v4 address => mappedFromV4Bytes address
  | .v6 bytes _ => bytes

def Unwanted (self e : Endpoint) : Prop :=
  e = self ∨ e.address.bytes = 0 ∨ e.address.bytes = 1 ∨
    ∃ n ∈ unwantedNetworks, n.Contains e.address.bytes

def unwantedRanges : List AddressRange :=
  [ipv4Loopback, rfc1918a, rfc1918b, rfc1918c, rfc6598, rfc5737a, rfc5737b, rfc5737c,
    ipv4Multicast, rfc6890, rfc4193, ipv6Multicast, rfc6666, rfc3849]

def uniqueLocalRest : AddressRange :=
  ⟨0xfd010000000000000000000000000000, 0xfdffffffffffffffffffffffffffffff⟩

def multicastRest : AddressRange :=
  ⟨0xff010000000000000000000000000000, 0xffffffffffffffffffffffffffffffff⟩

def MissedAddress (bytes : BitVec 128) (scopeId : Nat) : Prop :=
  uniqueLocalRest.Covers bytes ∨ multicastRest.Covers bytes ∨
    scopeId ≠ 0 ∧ ∃ r ∈ unwantedRanges, bytes = r.max

def Missed (e : Endpoint) : Prop :=
  ∃ bytes scopeId, e.address = .v6 bytes scopeId ∧ MissedAddress bytes scopeId

def Unreserved (bytes : BitVec 128) (scopeId : Nat) : Prop :=
  bytes ≠ 0 ∧ bytes ≠ 1 ∧
    ∀ r ∈ reservedRanges ++ reservedLiveRanges, r.contains bytes scopeId = false

section Check

variable {bytes : BitVec 128} {scopeId : Nat} {r rest : AddressRange}

theorem unwantedRanges_subset : unwantedRanges ⊆ reservedRanges ++ reservedLiveRanges := by
  decide

theorem pairwise_apart : (reservedRanges ++ reservedLiveRanges).Pairwise AddressRange.Apart := by
  decide

theorem networks_spanned : ∀ n ∈ unwantedNetworks,
    (∃ r ∈ unwantedRanges, r.Spans n) ∨
      AddressRange.Spans ⟨rfc4193.min, uniqueLocalRest.max⟩ n ∨
      AddressRange.Spans ⟨ipv6Multicast.min, multicastRest.max⟩ n := by
  decide

theorem covers_rest (hnext : r.max.toNat + 1 = rest.min.toNat)
    (hcovers : AddressRange.Covers ⟨r.min, rest.max⟩ bytes)
    (hcontains : r.contains bytes scopeId = false) :
    rest.Covers bytes ∨ bytes = r.max ∧ scopeId ≠ 0 := by
  have hnot : ¬ (r.Covers bytes ∧ ¬ (bytes = r.max ∧ scopeId ≠ 0)) := by
    rw [← AddressRange.contains_iff, hcontains]
    exact Bool.false_ne_true
  simp only [AddressRange.Covers, BitVec.le_def, ← BitVec.toNat_inj] at *
  omega

theorem Unreserved.missed {n : AddressNetwork} (h : Unreserved bytes scopeId)
    (hn : n ∈ unwantedNetworks) (hbytes : n.Contains bytes) : MissedAddress bytes scopeId := by
  obtain ⟨-, -, hfails⟩ := h
  have hrange : ∀ r ∈ unwantedRanges, r.contains bytes scopeId = false :=
    fun r hr => hfails r (unwantedRanges_subset hr)
  obtain ⟨r, hr, hspans⟩ | hspans | hspans := networks_spanned n hn
  · have hedge : bytes = r.max ∧ scopeId ≠ 0 := by
      by_contra hne
      have hcontains := AddressRange.contains_iff.mpr ⟨hspans.contains_iff.mp hbytes, hne⟩
      rw [hrange r hr] at hcontains
      exact Bool.false_ne_true hcontains
    exact .inr (.inr ⟨hedge.2, r, hr, hedge.1⟩)
  · obtain hrest | ⟨hmax, hscope⟩ := covers_rest (by decide) (hspans.contains_iff.mp hbytes)
      (hrange rfc4193 (by decide))
    · exact .inl hrest
    · exact .inr (.inr ⟨hscope, rfc4193, by decide, hmax⟩)
  · obtain hrest | ⟨hmax, hscope⟩ := covers_rest (by decide) (hspans.contains_iff.mp hbytes)
      (hrange ipv6Multicast (by decide))
    · exact .inr (.inl hrest)
    · exact .inr (.inr ⟨hscope, ipv6Multicast, by decide, hmax⟩)

theorem unreserved_of_apart (hmin : 1 < rest.min)
    (hapart : ∀ r ∈ reservedRanges ++ reservedLiveRanges, r.Apart rest)
    (hbytes : rest.Covers bytes) : Unreserved bytes scopeId := by
  have hlt : 1 < bytes.toNat := lt_of_lt_of_le (BitVec.lt_def.mp hmin) (BitVec.le_def.mp hbytes.1)
  refine ⟨?_, ?_, ?_⟩
  · rintro rfl
    simp at hlt
  · rintro rfl
    simp at hlt
  · intro r hr
    rw [Bool.eq_false_iff, ne_eq, AddressRange.contains_iff]
    exact fun h => (hapart r hr).not_covers hbytes h.1

theorem unreserved_max (hr : r ∈ unwantedRanges) (hscope : scopeId ≠ 0) :
    Unreserved r.max scopeId := by
  have hne : ∀ r ∈ unwantedRanges, r.max ≠ 0 ∧ r.max ≠ 1 ∧ r.min ≤ r.max := by decide
  obtain ⟨hzero, hone, hle⟩ := hne r hr
  refine ⟨hzero, hone, fun r' hr' => ?_⟩
  rw [Bool.eq_false_iff, ne_eq, AddressRange.contains_iff]
  rintro ⟨hcovers, hedge⟩
  by_cases heq : r' = r
  · exact hedge ⟨by rw [heq], hscope⟩
  · have hapart := pairwise_apart.forall hr' (unwantedRanges_subset hr) heq
    exact hapart.not_covers ⟨hle, BitVec.le_refl _⟩ hcovers

theorem MissedAddress.unreserved (h : MissedAddress bytes scopeId) :
    Unreserved bytes scopeId ∧ ∃ n ∈ unwantedNetworks, n.Contains bytes := by
  obtain hrest | hrest | ⟨hscope, r, hr, rfl⟩ := h
  · refine ⟨unreserved_of_apart (by decide) (by decide) hrest,
      ⟨0xfc000000000000000000000000000000, 7⟩, by decide, ?_⟩
    have hspans : AddressRange.Spans ⟨rfc4193.min, uniqueLocalRest.max⟩
        ⟨0xfc000000000000000000000000000000, 7⟩ := by decide
    exact hspans.contains_iff.mpr ⟨BitVec.le_trans (by decide) hrest.1, hrest.2⟩
  · refine ⟨unreserved_of_apart (by decide) (by decide) hrest,
      ⟨0xff000000000000000000000000000000, 8⟩, by decide, ?_⟩
    have hspans : AddressRange.Spans ⟨ipv6Multicast.min, multicastRest.max⟩
        ⟨0xff000000000000000000000000000000, 8⟩ := by decide
    exact hspans.contains_iff.mpr ⟨BitVec.le_trans (by decide) hrest.1, hrest.2⟩
  · have hnetwork : ∀ r ∈ unwantedRanges, ∃ n ∈ unwantedNetworks, n.Contains r.max := by decide
    exact ⟨unreserved_max hr hscope, hnetwork r hr⟩

end Check

/-! ## What the container holds -/

namespace PeerContainer

variable {network : BademNetwork} {p : PeerContainer} {e : Endpoint} {q : PeerContainer}
  {self : Endpoint}

def endpoints (p : PeerContainer) : List Endpoint := p.peers.map (·.endpoint)

theorem notAPeer_live_iff :
    p.notAPeer .live e = some false ↔
      e ≠ p.self ∧ ∃ bytes scopeId, e.address = .v6 bytes scopeId ∧ Unreserved bytes scopeId := by
  obtain ⟨address, port⟩ := e
  cases address with
  | v4 address => simp [notAPeer]
  | v6 bytes scopeId =>
    simp [notAPeer, reservedAddress, Unreserved, or_imp, forall_and]
    tauto

theorem endpoints_modify {f : PeerInformation → PeerInformation}
    (hf : ∀ x, (f x).endpoint = x.endpoint) (endpoint : Endpoint) :
    (p.modify endpoint f).endpoints = p.endpoints := by
  rw [endpoints, modify, List.map_map]
  refine List.map_congr_left fun x _ => ?_
  rw [Function.comp_apply]
  split_ifs
  · exact hf x
  · rfl

def Admits (network : BademNetwork) (p q : PeerContainer) : Prop :=
  q.endpoints.Sublist p.endpoints ∨
    ∃ e, e ∉ p.endpoints ∧ p.notAPeer network e = some false ∧ q.endpoints = p.endpoints ++ [e]

theorem admits_of_eq (h : q.endpoints = p.endpoints) : Admits network p q :=
  .inl (h ▸ List.Sublist.refl _)

theorem admits_insert (network : BademNetwork) (now : Nat) (endpoint : Endpoint) (version : Nat) :
    Admits network p (((p.insert network now endpoint version).map (·.2.2)).getD p) := by
  rw [insert]
  cases hpeer : p.notAPeer network endpoint with
  | none => exact admits_of_eq rfl
  | some result =>
    rw [Option.bind_eq_bind, Option.bind_some]
    split_ifs with hadmit hknown
    · refine admits_of_eq (endpoints_modify ?_ endpoint)
      exact fun _ => rfl
    · refine .inr ⟨endpoint, ?_, hadmit.1 ▸ hpeer, List.map_append⟩
      simpa [knownPeer, endpoints] using hknown
    · exact admits_of_eq rfl

theorem endpoints_repResponse (now : Nat) (endpoint : Endpoint) (repAccount : Account)
    (weight : Amount) :
    (p.repResponse now endpoint repAccount weight).2.endpoints = p.endpoints := by
  refine endpoints_modify (fun x => ?_) _
  split_ifs <;> rfl

theorem endpoints_reachout (now : Nat) (endpoint : Endpoint) :
    (((p.reachout network now endpoint).map (·.2)).getD p).endpoints = p.endpoints := by
  rw [reachout]
  cases p.notAPeer network endpoint with
  | none => rfl
  | some error =>
    rw [Option.bind_eq_bind, Option.bind_some]
    dsimp only
    split_ifs <;> rfl

theorem endpoints_bootstrapPeer (order : Visit PeerInformation) (now : Nat) :
    (p.bootstrapPeer order now).2.endpoints = p.endpoints := by
  rw [bootstrapPeer]
  split
  · rfl
  · refine endpoints_modify ?_ _
    exact fun _ => rfl

theorem endpoints_purgeList (order : Visit PeerInformation) (now cutoff : Nat) :
    (p.purgeList order now cutoff).2.2.endpoints.Sublist p.endpoints := by
  rw [purgeList, endpoints, List.map_map]
  exact List.filter_sublist.map _

theorem admits_call (network : BademNetwork) (p : PeerContainer) (now : Nat) (c : Call) :
    Admits network p (p.call network now c) := by
  cases c with
  | insert endpoint version => exact admits_insert network now endpoint version
  | contacted endpoint version => exact admits_insert network now (mappedEndpoint endpoint) version
  | repResponse endpoint repAccount weight =>
    exact admits_of_eq (endpoints_repResponse now endpoint repAccount weight)
  | repRequest endpoint =>
    refine admits_of_eq (endpoints_modify ?_ endpoint)
    exact fun _ => rfl
  | reachout endpoint => exact admits_of_eq (endpoints_reachout now endpoint)
  | bootstrapPeer order => exact admits_of_eq (endpoints_bootstrapPeer order now)
  | purgeList order cutoff => exact .inl (endpoints_purgeList order now cutoff)

theorem self_call (network : BademNetwork) (p : PeerContainer) (now : Nat) (c : Call) :
    (p.call network now c).self = p.self := by
  have hinsert : ∀ endpoint version,
      (((p.insert network now endpoint version).map (·.2.2)).getD p).self = p.self := by
    intro endpoint version
    rw [insert]
    cases p.notAPeer network endpoint with
    | none => rfl
    | some result =>
      rw [Option.bind_eq_bind, Option.bind_some]
      split_ifs <;> rfl
  cases c with
  | insert endpoint version => exact hinsert endpoint version
  | contacted endpoint version => exact hinsert (mappedEndpoint endpoint) version
  | reachout endpoint =>
    rw [call, reachout]
    cases p.notAPeer network endpoint with
    | none => rfl
    | some error =>
      rw [Option.bind_eq_bind, Option.bind_some]
      dsimp only
      split_ifs <;> rfl
  | bootstrapPeer order =>
    rw [call, bootstrapPeer]
    split <;> rfl
  | repResponse | repRequest | purgeList => rfl

theorem run_append_singleton (self : Endpoint) (calls : List (Nat × Call)) (c : Nat × Call) :
    run network self (calls ++ [c]) = (run network self calls).call network c.1 c.2 := by
  rw [run, List.foldl_append]
  rfl

theorem self_run (network : BademNetwork) (self : Endpoint) (calls : List (Nat × Call)) :
    (run network self calls).self = self := by
  induction calls using List.reverseRecOn with
  | nil => rfl
  | append_singleton calls c ih => rw [run_append_singleton, self_call, ih]

theorem notAPeer_congr (h : p.self = q.self) : p.notAPeer network e = q.notAPeer network e := by
  rw [notAPeer, notAPeer, h]

theorem notAPeer_of_mem_run {calls : List (Nat × Call)}
    (he : e ∈ (run network self calls).endpoints) :
    (start self).notAPeer network e = some false := by
  induction calls using List.reverseRecOn with
  | nil => exact absurd he List.not_mem_nil
  | append_singleton calls c ih =>
    rw [run_append_singleton] at he
    obtain hkept | ⟨e', -, hpeer, hnew⟩ := admits_call network (run network self calls) c.1 c.2
    · exact ih (hkept.subset he)
    · rw [hnew, List.mem_append, List.mem_singleton] at he
      obtain hold | rfl := he
      · exact ih hold
      · rw [← hpeer]
        exact notAPeer_congr (self_run network self calls).symm

theorem nodup_run (network : BademNetwork) (self : Endpoint) (calls : List (Nat × Call)) :
    (run network self calls).endpoints.Nodup := by
  induction calls using List.reverseRecOn with
  | nil => exact List.nodup_nil
  | append_singleton calls c ih =>
    rw [run_append_singleton]
    obtain hkept | ⟨e, hfresh, -, hnew⟩ := admits_call network (run network self calls) c.1 c.2
    · exact ih.sublist hkept
    · grind

theorem mem_run_contacted (he : (start self).notAPeer network e = some false) :
    e ∈ (run network self [(0, .contacted e protocolVersionMin)]).endpoints := by
  obtain ⟨address, port⟩ := e
  cases address with
  | v4 address => exact absurd he (by simp [notAPeer])
  | v6 bytes scopeId =>
    rw [run, List.foldl_cons, List.foldl_nil, call, contacted, mappedEndpoint, insert, he]
    exact List.mem_singleton_self _

end PeerContainer

open PeerContainer

/-- The unwanted endpoints that can get into the container are those from `fd01::` or `ff01::` on,
and the last address of a reserved range with a scope. -/
theorem peers_hold_unwanted_iff (self e : Endpoint) :
    (∃ calls, e ∈ (run .live self calls).endpoints ∧ Unwanted self e) ↔ e ≠ self ∧ Missed e := by
  constructor
  · rintro ⟨calls, he, hunwanted⟩
    obtain ⟨hself, bytes, scopeId, haddress, hfree⟩ := notAPeer_live_iff.mp (notAPeer_of_mem_run he)
    refine ⟨hself, bytes, scopeId, haddress, ?_⟩
    rw [Unwanted, haddress] at hunwanted
    obtain rfl | hzero | hone | ⟨n, hn, hbytes⟩ := hunwanted
    · exact absurd rfl hself
    · exact absurd hzero hfree.1
    · exact absurd hone hfree.2.1
    · exact hfree.missed hn hbytes
  · rintro ⟨hself, bytes, scopeId, haddress, hmissed⟩
    obtain ⟨hfree, hnetwork⟩ := hmissed.unreserved
    refine ⟨_, mem_run_contacted (notAPeer_live_iff.mpr ⟨hself, bytes, scopeId, haddress, hfree⟩),
      .inr (.inr (.inr ?_))⟩
    rw [haddress]
    exact hnetwork

def uniqueLocalPeer : Endpoint := ⟨.v6 0xfd123456789a00010000000000000001 0, 54000⟩

theorem peers_hold_unique_local :
    uniqueLocalPeer ∈ (run .live ⟨.v6 1 0, 54000⟩ [(0, .contacted uniqueLocalPeer 10)]).endpoints ∧
      Unwanted ⟨.v6 1 0, 54000⟩ uniqueLocalPeer :=
  ⟨by decide, .inr (.inr (.inr ⟨⟨0xfc000000000000000000000000000000, 7⟩, by decide, by decide⟩))⟩

end Badem
