import Badem.Core.Messages
import Mathlib

/-!
# Peers

`peer_container` of `node/node.cpp` and the addresses that are not taken into it.  Entries with
equal times stand in some order in the indexes by time, which is an argument of the calls.
-/

namespace Badem

open Containers

/-! ## Addresses -/

def mappedFromV4Bytes (address : BitVec 32) : BitVec 128 :=
  0xffff00000000 ||| address.setWidth 128

def IpAddress.isV6 : IpAddress → Bool
  | .v4 _ => false
  | .v6 _ _ => true

/-- `address_v6::operator<`, which compares the scopes of equal bytes. -/
def lessV6 (a : BitVec 128) (aScope : Nat) (b : BitVec 128) (bScope : Nat) : Bool :=
  a < b || (a == b && aScope < bScope)

/-- The first and the last address of a range, which have no scope. -/
structure AddressRange where
  min : BitVec 128
  max : BitVec 128
deriving DecidableEq

def AddressRange.contains (r : AddressRange) (bytes : BitVec 128) (scopeId : Nat) : Bool :=
  !lessV6 bytes scopeId r.min 0 && !lessV6 r.max 0 bytes scopeId

def mappedRange (min max : BitVec 32) : AddressRange :=
  ⟨mappedFromV4Bytes min, mappedFromV4Bytes max⟩

def rfc1700 : AddressRange := mappedRange 0x00000000 0x00ffffff

def ipv4Loopback : AddressRange := mappedRange 0x7f000000 0x7fffffff

def rfc1918a : AddressRange := mappedRange 0x0a000000 0x0affffff

def rfc1918b : AddressRange := mappedRange 0xac100000 0xac1fffff

def rfc1918c : AddressRange := mappedRange 0xc0a80000 0xc0a8ffff

def rfc6598 : AddressRange := mappedRange 0x64400000 0x647fffff

def rfc5737a : AddressRange := mappedRange 0xc0000200 0xc00002ff

def rfc5737b : AddressRange := mappedRange 0xc6336400 0xc63364ff

def rfc5737c : AddressRange := mappedRange 0xcb007100 0xcb0071ff

def ipv4Multicast : AddressRange := mappedRange 0xe0000000 0xefffffff

def rfc6890 : AddressRange := mappedRange 0xf0000000 0xffffffff

/-- From `100::` to `100::ffff:ffff:ffff:ffff`. -/
def rfc6666 : AddressRange :=
  ⟨0x01000000000000000000000000000000, 0x0100000000000000ffffffffffffffff⟩

/-- From `2001:db8::` to `2001:db8:ffff:ffff:ffff:ffff:ffff:ffff`. -/
def rfc3849 : AddressRange :=
  ⟨0x20010db8000000000000000000000000, 0x20010db8ffffffffffffffffffffffff⟩

/-- From `fc00::` to `fd00:ffff:ffff:ffff:ffff:ffff:ffff:ffff`. -/
def rfc4193 : AddressRange :=
  ⟨0xfc000000000000000000000000000000, 0xfd00ffffffffffffffffffffffffffff⟩

/-- From `ff00::` to `ff00:ffff:ffff:ffff:ffff:ffff:ffff:ffff`. -/
def ipv6Multicast : AddressRange :=
  ⟨0xff000000000000000000000000000000, 0xff00ffffffffffffffffffffffffffff⟩

def reservedRanges : List AddressRange :=
  [rfc1700, rfc5737a, rfc5737b, rfc5737c, ipv4Multicast, rfc6890, rfc6666, rfc3849, ipv6Multicast]

def reservedLiveRanges : List AddressRange :=
  [ipv4Loopback, rfc1918a, rfc1918b, rfc1918c, rfc6598, rfc4193]

def reservedAddress (network : BademNetwork) (bytes : BitVec 128) (scopeId : Nat) : Bool :=
  reservedRanges.any (·.contains bytes scopeId) ||
    (decide (network = .live) &&
      (decide (bytes = 1) || reservedLiveRanges.any (·.contains bytes scopeId)))

/-! ## Endpoint texts -/

/-- `std::stoul`, with the number of the characters that it has read.  Without digits, or when their
number is too large, it throws.  A minus sign negates the number modulo its type. -/
def stoul (text : Text) : Option (Uint64 × Nat) :=
  let signed := text.dropWhile isSpace
  let unsigned := if signed.head?.any isSign then signed.tail else signed
  let digits := unsigned.takeWhile (fun c => decide (0x30 ≤ c ∧ c ≤ 0x39))
  (parseDigits 10 0 digits).bind (fun n =>
    if digits ≠ [] ∧ n < 2 ^ 64 then
      some (if signed.head? = some 0x2d then -BitVec.ofNat 64 n else BitVec.ofNat 64 n,
        text.length - unsigned.length + digits.length)
    else none)

/-- `parse_port`, which compares the number of the characters with the largest port. -/
def parsePort (text : Text) : Option (BitVec 16) := do
  let (value, converted) ← stoul text
  if converted ≠ text.length ∨ converted > 65535 then none else pure (value.setWidth 16)

def rfind (c : Uint8) (text : Text) : Option Nat :=
  if text.contains c then some (text.length - 1 - text.reverse.idxOf c) else none

/-- `parse_address_port`, for what `address_v6::from_string` accepts. -/
def parseAddressPort {α : Type} (fromString : Text → Option α) (text : Text) :
    Option (α × BitVec 16) := do
  let position ← rfind 0x3a text
  if position > 0 then
    let port ← parsePort (text.drop (position + 1))
    let address ← fromString (text.take position)
    pure (address, port)
  else none

/-! ## The container -/

def protocolVersionMin : Nat := 7

structure PeerInformation where
  endpoint : Endpoint
  lastContact : Nat
  lastAttempt : Nat
  lastBootstrapAttempt : Nat
  lastRepRequest : Nat
  lastRepResponse : Nat
  repWeight : Amount
  /-- Not set before the first response. -/
  probableRepAccount : Option Account
  networkVersion : Nat

def PeerInformation.new (now : Nat) (endpoint : Endpoint) (version : Nat) : PeerInformation where
  endpoint := endpoint
  lastContact := now
  lastAttempt := now
  lastBootstrapAttempt := 0
  lastRepRequest := 0
  lastRepResponse := 0
  repWeight := 0
  probableRepAccount := none
  networkVersion := version

structure PeerAttempt where
  endpoint : Endpoint
  lastAttempt : Nat

structure PeerContainer where
  self : Endpoint
  peers : List PeerInformation
  attempts : List PeerAttempt

namespace PeerContainer

def start (self : Endpoint) : PeerContainer := ⟨self, [], []⟩

section Calls

variable (network : BademNetwork) (p : PeerContainer)

def notAPeer (endpoint : Endpoint) : Option Bool :=
  match endpoint.address with
  | .v4 _ => none
  | .v6 bytes scopeId =>
    some (decide (bytes = 0) || reservedAddress network bytes scopeId ||
      decide (endpoint = p.self))

def knownPeer (endpoint : Endpoint) : Bool :=
  p.peers.any (fun x => decide (x.endpoint = endpoint))

def modify (endpoint : Endpoint) (f : PeerInformation → PeerInformation) : PeerContainer :=
  { p with peers := p.peers.map (fun x => if x.endpoint = endpoint then f x else x) }

def insert (now : Nat) (endpoint : Endpoint) (version : Nat) :
    Option (Bool × Bool × PeerContainer) := do
  let result ← p.notAPeer network endpoint
  if result = false ∧ protocolVersionMin ≤ version then
    if p.knownPeer endpoint = true then
      pure (true, false, p.modify endpoint (fun x => { x with lastContact := now }))
    else
      pure (false, true, { p with peers := p.peers ++ [.new now endpoint version] })
  else
    pure (result, false, p)

def mappedEndpoint (endpoint : Endpoint) : Endpoint :=
  match endpoint.address with
  | .v4 address => ⟨.v6 (mappedFromV4Bytes address) 0, endpoint.port⟩
  | .v6 _ _ => endpoint

def contacted (now : Nat) (endpoint : Endpoint) (version : Nat) :
    Option (Bool × Bool × PeerContainer) :=
  p.insert network now (mappedEndpoint endpoint) version

/-- `rep_response`, with whether the weight has grown. -/
def repResponse (now : Nat) (endpoint : Endpoint) (repAccount : Account) (weight : Amount) :
    Bool × PeerContainer :=
  (p.peers.any (fun x => decide (x.endpoint = endpoint) && decide (x.repWeight < weight)),
    p.modify endpoint (fun x =>
      if x.repWeight < weight then
        { x with
          lastRepResponse := now
          repWeight := weight
          probableRepAccount := some repAccount }
      else
        { x with lastRepResponse := now }))

def repRequest (now : Nat) (endpoint : Endpoint) : PeerContainer :=
  p.modify endpoint (fun x => { x with lastRepRequest := now })

def reachout (now : Nat) (endpoint : Endpoint) : Option (Bool × PeerContainer) := do
  let error ← p.notAPeer network endpoint
  if error = false then
    let existing := p.attempts.any (fun x => decide (x.endpoint = endpoint))
    pure (p.knownPeer endpoint || existing,
      if existing = true then p else { p with attempts := p.attempts ++ [⟨endpoint, now⟩] })
  else
    pure (true, p)

def byTime (order : Visit PeerInformation) (time : PeerInformation → Nat) :
    List PeerInformation :=
  (order.order p.peers).mergeSort (fun x y => decide (time x ≤ time y))

/-- `bootstrap_peer`, which returns the unspecified endpoint if no peer has the version. -/
def bootstrapPeer (order : Visit PeerInformation) (now : Nat) : Endpoint × PeerContainer :=
  match (p.byTime order (·.lastBootstrapAttempt)).find?
      (fun x => decide (5 ≤ x.networkVersion)) with
  | none => (⟨.v6 0 0, 0⟩, p)
  | some peer =>
    (peer.endpoint, p.modify peer.endpoint (fun x => { x with lastBootstrapAttempt := now }))

/-- `purge_list`, with the peers that are left and whether the observer is told that there is
none. -/
def purgeList (order : Visit PeerInformation) (now cutoff : Nat) :
    List PeerInformation × Bool × PeerContainer :=
  let result :=
    (p.byTime order (·.lastContact)).filter (fun x => decide (cutoff ≤ x.lastContact))
  let left := p.peers.filter (fun x => decide (cutoff ≤ x.lastContact))
  (result, result.isEmpty,
    { p with
      peers := left.map (fun x => { x with lastAttempt := now })
      attempts := p.attempts.filter (fun x => decide (cutoff ≤ x.lastAttempt)) })

/-! ## Samples -/

/-- The loop of `random_set` that draws peers, with the number of attempts that are left. -/
def drawPeers (count : Nat) (random : Nat → Nat) : Nat → Nat → List Endpoint → List Endpoint
  | 0, _, result => result
  | left + 1, i, result =>
    if result.length < count then
      drawPeers count random left (i + 1)
        ((p.peers[random i % p.peers.length]?).elim result (fun x => result.insert x.endpoint))
    else result

def fillPeers (count : Nat) : List PeerInformation → List Endpoint → List Endpoint
  | [], result => result
  | x :: rest, result =>
    if result.length < count then fillPeers count rest (result.insert x.endpoint) else result

def randomSet (order : Visit PeerInformation) (random : Nat → Nat) (count : Nat) :
    List Endpoint :=
  let randomCutoff := count * 2 % 2 ^ 64
  let result := if p.peers.isEmpty then [] else p.drawPeers count random randomCutoff 0 []
  fillPeers count (p.byTime order (·.lastContact)) result

def fillTarget : List Endpoint → Nat → List Endpoint → Except Fault (List Endpoint)
  | [], _, target => .ok target
  | x :: rest, j, target => do
      require (x.address.isV6 = true)
      require (j < target.length)
      fillTarget rest (j + 1) (target.set j x)

/-- `random_fill`, for an order in which the set is visited. -/
def randomFill (order : Visit PeerInformation) (visit : Visit Endpoint) (random : Nat → Nat) :
    Except Fault (List Endpoint) := do
  let peers := p.randomSet order random 8
  require (peers.length ≤ 8)
  let endpoint : Endpoint := ⟨.v6 0 0, 0⟩
  require (endpoint.address.isV6 = true)
  fillTarget (visit.order peers) 0 (List.replicate 8 endpoint)

end Calls

/-! ## Runs -/

inductive Call
  | insert (endpoint : Endpoint) (version : Nat)
  | contacted (endpoint : Endpoint) (version : Nat)
  | repResponse (endpoint : Endpoint) (repAccount : Account) (weight : Amount)
  | repRequest (endpoint : Endpoint)
  | reachout (endpoint : Endpoint)
  | bootstrapPeer (order : Visit PeerInformation)
  | purgeList (order : Visit PeerInformation) (cutoff : Nat)

def call (network : BademNetwork) (p : PeerContainer) (now : Nat) : Call → PeerContainer
  | .insert endpoint version => ((p.insert network now endpoint version).map (·.2.2)).getD p
  | .contacted endpoint version => ((p.contacted network now endpoint version).map (·.2.2)).getD p
  | .repResponse endpoint repAccount weight => (p.repResponse now endpoint repAccount weight).2
  | .repRequest endpoint => p.repRequest now endpoint
  | .reachout endpoint => ((p.reachout network now endpoint).map (·.2)).getD p
  | .bootstrapPeer order => (p.bootstrapPeer order now).2
  | .purgeList order cutoff => (p.purgeList order now cutoff).2.2

def run (network : BademNetwork) (self : Endpoint) (calls : List (Nat × Call)) : PeerContainer :=
  calls.foldl (fun p c => p.call network c.1 c.2) (start self)

end PeerContainer

end Badem
