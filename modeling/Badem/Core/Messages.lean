import Badem.Codec.Streams
import Badem.Core.BlockProcessor
import Badem.Core.Elections
import Badem.Core.NumberText

/-!
# Datagrams

The messages of `node/common.cpp` that arrive in datagrams and the parser `message_parser`.
Machine words are written with the lowest byte first, except for the work of a state block.
The flag `asserts` says whether assertions are compiled in.
-/

namespace Badem

open Codec

/-- A buffer, or what is left of one. -/
abbrev Stream := List Uint8

/-! ## Blocks -/

def SendBlock.serialize (b : SendBlock) : Stream :=
  bigEndian b.hashables.previous ++ bigEndian b.hashables.destination ++
    bigEndian b.hashables.balance ++ bigEndian b.signature ++ littleEndian b.work

def ReceiveBlock.serialize (b : ReceiveBlock) : Stream :=
  bigEndian b.hashables.previous ++ bigEndian b.hashables.source ++ bigEndian b.signature ++
    littleEndian b.work

def OpenBlock.serialize (b : OpenBlock) : Stream :=
  bigEndian b.hashables.source ++ bigEndian b.hashables.representative ++
    bigEndian b.hashables.account ++ bigEndian b.signature ++ littleEndian b.work

def ChangeBlock.serialize (b : ChangeBlock) : Stream :=
  bigEndian b.hashables.previous ++ bigEndian b.hashables.representative ++
    bigEndian b.signature ++ littleEndian b.work

/-- The work of a state block is swapped into big endian before it is written. -/
def StateBlock.serialize (b : StateBlock) : Stream :=
  bigEndian b.hashables.account ++ bigEndian b.hashables.previous ++
    bigEndian b.hashables.representative ++ bigEndian b.hashables.balance ++
    bigEndian b.hashables.link ++ bigEndian b.signature ++ bigEndian b.work

def Block.serialize : Block → Stream
  | .sendBlock b => b.serialize
  | .receiveBlock b => b.serialize
  | .openBlock b => b.serialize
  | .changeBlock b => b.serialize
  | .stateBlock b => b.serialize

def SendBlock.ofStream : Reader Uint8 SendBlock := do
  let previous ← readBig 256
  let destination ← readBig 256
  let balance ← readBig 128
  let signature ← readBig 512
  let work ← readLittle 64
  pure ⟨⟨previous, destination, balance⟩, signature, work⟩

def ReceiveBlock.ofStream : Reader Uint8 ReceiveBlock := do
  let previous ← readBig 256
  let source ← readBig 256
  let signature ← readBig 512
  let work ← readLittle 64
  pure ⟨⟨previous, source⟩, signature, work⟩

def OpenBlock.ofStream : Reader Uint8 OpenBlock := do
  let source ← readBig 256
  let representative ← readBig 256
  let account ← readBig 256
  let signature ← readBig 512
  let work ← readLittle 64
  pure ⟨⟨source, representative, account⟩, signature, work⟩

def ChangeBlock.ofStream : Reader Uint8 ChangeBlock := do
  let previous ← readBig 256
  let representative ← readBig 256
  let signature ← readBig 512
  let work ← readLittle 64
  pure ⟨⟨previous, representative⟩, signature, work⟩

def StateBlock.ofStream : Reader Uint8 StateBlock := do
  let account ← readBig 256
  let previous ← readBig 256
  let representative ← readBig 256
  let balance ← readBig 128
  let link ← readBig 256
  let signature ← readBig 512
  let work ← readBig 64
  pure ⟨⟨account, previous, representative, balance, link⟩, signature, work⟩

/-- The block type with a given number, which may be none of the five. -/
def BlockType.ofCode (code : Nat) : Option BlockType :=
  match code with
  | 2 => some .send
  | 3 => some .receive
  | 4 => some .opening
  | 5 => some .change
  | 6 => some .state
  | _ => none

def Block.ofStream : BlockType → Reader Uint8 Block
  | .send => Block.sendBlock <$> SendBlock.ofStream
  | .receive => Block.receiveBlock <$> ReceiveBlock.ofStream
  | .opening => Block.openBlock <$> OpenBlock.ofStream
  | .change => Block.changeBlock <$> ChangeBlock.ofStream
  | .state => Block.stateBlock <$> StateBlock.ofStream

def assertIf (asserts : Bool) (c : Prop) [Decidable c] : Except Fault Unit :=
  if asserts = true then require c else .ok ()

theorem assertIf_of {asserts : Bool} {c : Prop} [Decidable c] (h : asserts = true → c) :
    assertIf asserts c = .ok () := by
  rw [assertIf]
  split_ifs with ha
  · exact require_of (h ha)
  · rfl

/-- `deserialize_block`: the null pointer is `none`. -/
def deserializeBlock (asserts : Bool) (code : Nat) (stream : Stream) :
    Except Fault (Option (Block × Stream)) :=
  match BlockType.ofCode code with
  | some type => .ok (Block.ofStream type stream)
  | none => do
      assertIf asserts False
      pure none

def serializeBlock (b : Block) : Stream := bigEndian (BitVec.ofNat 8 b.type.code) ++ b.serialize

def deserializeTypedBlock (asserts : Bool) (stream : Stream) :
    Except Fault (Option (Block × Stream)) :=
  match readBig 8 stream with
  | none => .ok none
  | some (code, rest) => deserializeBlock asserts code.toNat rest

/-! ## Votes -/

/-- The fields of a vote before its block. -/
structure VotePart where
  account : Account
  signature : Signature
  sequence : Uint64

def VotePart.serialize (v : VotePart) : Stream :=
  bigEndian v.account ++ bigEndian v.signature ++ littleEndian v.sequence

def VotePart.ofStream : Reader Uint8 VotePart := do
  let account ← readBig 256
  let signature ← readBig 512
  let sequence ← readLittle 64
  pure ⟨account, signature, sequence⟩

def VotePart.vote (v : VotePart) (block : Block) : Vote :=
  ⟨v.sequence, block, v.account, v.signature⟩

def Vote.part (v : Vote) : VotePart := ⟨v.account, v.signature, v.sequence⟩

def Vote.serialize (v : Vote) : Stream := v.part.serialize ++ v.block.serialize

/-- The fields of a vote, and then its block in the given way. -/
def Vote.readWith (readBlock : Stream → Except Fault (Option (Block × Stream))) (stream : Stream) :
    Except Fault (Option (Vote × Stream)) :=
  match VotePart.ofStream stream with
  | none => .ok none
  | some (part, rest) => do
      let block ← readBlock rest
      pure (block.map (fun b => (part.vote b.1, b.2)))

def Vote.ofStream (asserts : Bool) (code : Nat) : Stream → Except Fault (Option (Vote × Stream)) :=
  Vote.readWith (deserializeBlock asserts code)

/-- `vote::serialize` without a type: the type is written before the block. -/
def Vote.serializeTyped (v : Vote) : Stream := v.part.serialize ++ serializeBlock v.block

def Vote.ofTypedStream (asserts : Bool) : Stream → Except Fault (Option (Vote × Stream)) :=
  Vote.readWith (deserializeTypedBlock asserts)

/-- `vote::deserialize`.  The type that it passes on is `block_type ()`, the enumerator
`invalid` with the value zero. -/
def Vote.deserialize (asserts : Bool) : Stream → Except Fault (Option (Vote × Stream)) :=
  Vote.readWith (deserializeBlock asserts 0)

/-! ## Headers -/

inductive MessageType
  | keepalive
  | publish
  | confirmReq
  | confirmAck
deriving DecidableEq

def MessageType.code : MessageType → Uint8
  | .keepalive => 2
  | .publish => 3
  | .confirmReq => 4
  | .confirmAck => 5

def BademNetwork.magicNumber : BademNetwork → List Uint8
  | .test => ascii "BZ"
  | .beta => ascii "BY"
  | .live => ascii "BX"

/-- The type is kept as the byte that was read. -/
structure MessageHeader where
  versionMax : Uint8
  versionUsing : Uint8
  versionMin : Uint8
  type : Uint8
  extensions : BitVec 16
deriving DecidableEq

/-- `block_type`: four bits of the extensions. -/
def MessageHeader.blockType (h : MessageHeader) : Nat :=
  ((h.extensions &&& 0x0f00) >>> 8).toNat

def MessageHeader.serialize (env : Env) (h : MessageHeader) : Stream :=
  env.network.magicNumber ++ bigEndian h.versionMax ++ bigEndian h.versionUsing ++
    bigEndian h.versionMin ++ bigEndian h.type ++ littleEndian h.extensions

def MessageHeader.ofStream : Reader Uint8 MessageHeader := do
  let versionMax ← readBig 8
  let versionUsing ← readBig 8
  let versionMin ← readBig 8
  let type ← readBig 8
  let extensions ← readLittle 16
  pure ⟨versionMax, versionUsing, versionMin, type, extensions⟩

def MessageHeader.deserialize (env : Env) : Reader Uint8 MessageHeader := do
  let magicNumber ← take 2
  if magicNumber ≠ env.network.magicNumber then failure
  else MessageHeader.ofStream

/-! ## Messages -/

/-- An address of a socket; an IPv6 address has a scope beside its sixteen bytes. -/
inductive IpAddress
  | v4 (address : BitVec 32)
  | v6 (address : BitVec 128) (scopeId : Nat)
deriving DecidableEq

structure Endpoint where
  address : IpAddress
  port : BitVec 16
deriving DecidableEq

/-- The scope is not written; the conversion of an IPv4 address throws. -/
def Endpoint.serialize (e : Endpoint) : Option Stream :=
  match e.address with
  | .v4 _ => none
  | .v6 address _ => some (bigEndian address ++ littleEndian e.port)

def Endpoint.ofStream : Reader Uint8 Endpoint := do
  let address ← readBig 128
  let port ← readLittle 16
  pure ⟨.v6 address 0, port⟩

structure Keepalive where
  header : MessageHeader
  peers : List.Vector Endpoint 8
deriving DecidableEq

def Keepalive.serialize (env : Env) (m : Keepalive) : Option Stream := do
  let peers ← m.peers.toList.mapM Endpoint.serialize
  pure (m.header.serialize env ++ peers.flatten)

structure BlockMessage where
  header : MessageHeader
  block : Block
deriving DecidableEq

def BlockMessage.serialize (env : Env) (m : BlockMessage) : Stream :=
  m.header.serialize env ++ m.block.serialize

structure ConfirmAck where
  header : MessageHeader
  vote : Vote
deriving DecidableEq

def ConfirmAck.serialize (env : Env) (m : ConfirmAck) : Stream :=
  m.header.serialize env ++ m.vote.serialize

def ConfirmAck.ofStream (asserts : Bool) (header : MessageHeader) (stream : Stream) :
    Except Fault (Option (ConfirmAck × Stream)) := do
  let vote ← Vote.ofStream asserts header.blockType stream
  pure (vote.map (fun v => (⟨header, v.1⟩, v.2)))

def ConfirmAck.deserialize (asserts : Bool) (header : MessageHeader) (stream : Stream) :
    Except Fault (Option (ConfirmAck × Stream)) := do
  assertIf asserts (header.type = MessageType.confirmAck.code)
  let vote ← Vote.deserialize asserts stream
  pure (vote.map (fun v => (⟨header, v.1⟩, v.2)))

inductive Message
  | keepalive (message : Keepalive)
  | publish (message : BlockMessage)
  | confirmReq (message : BlockMessage)
  | confirmAck (message : ConfirmAck)
deriving DecidableEq

def Message.serialize (env : Env) : Message → Option Stream
  | .keepalive m => m.serialize env
  | .publish m => some (m.serialize env)
  | .confirmReq m => some (m.serialize env)
  | .confirmAck m => some (m.serialize env)

/-! ## The parser -/

inductive ParseStatus
  | success
  | insufficientWork
  | invalidHeader
  | invalidMessageType
  | invalidKeepaliveMessage
  | invalidPublishMessage
  | invalidConfirmReqMessage
  | invalidConfirmAckMessage
deriving DecidableEq

/-- The status of the parser and the messages that the visitor was called with. -/
structure ParserResult where
  status : ParseStatus
  visited : List Message
deriving DecidableEq

namespace MessageParser

variable (env : NodeEnv) (asserts : Bool)

def atEnd (stream : Stream) : Bool := (take 1 stream).isNone

def deserializeKeepalive (stream : Stream) (header : MessageHeader) :
    Except Fault ParserResult := do
  assertIf asserts (header.type = MessageType.keepalive.code)
  match replicate Endpoint.ofStream 8 stream with
  | some (peers, rest) =>
    if atEnd rest then pure ⟨.success, [.keepalive ⟨header, peers⟩]⟩
    else pure ⟨.invalidKeepaliveMessage, []⟩
  | none => pure ⟨.invalidKeepaliveMessage, []⟩

/-- The end of the parsers of messages with a block, after the rest of the message has been
decoded. -/
def conclude {α : Type} (block : α → Block) (message : α → Message) (invalid : ParseStatus) :
    Option (α × Stream) → ParserResult
  | some (a, rest) =>
    if atEnd rest = true then
      if env.workValidate (block a) = false then ⟨.success, [message a]⟩
      else ⟨.insufficientWork, []⟩
    else ⟨invalid, []⟩
  | none => ⟨invalid, []⟩

/-- `deserialize_publish` and `deserialize_confirm_req`, which differ in the type they
assert, the message they build and the status they set. -/
def deserializeBlockMessage (type : MessageType) (message : BlockMessage → Message)
    (invalid : ParseStatus) (stream : Stream) (header : MessageHeader) :
    Except Fault ParserResult := do
  assertIf asserts (header.type = type.code)
  let block ← deserializeBlock asserts header.blockType stream
  pure (conclude env id (fun b => message ⟨header, b⟩) invalid block)

def deserializePublish : Stream → MessageHeader → Except Fault ParserResult :=
  deserializeBlockMessage env asserts .publish .publish .invalidPublishMessage

def deserializeConfirmReq : Stream → MessageHeader → Except Fault ParserResult :=
  deserializeBlockMessage env asserts .confirmReq .confirmReq .invalidConfirmReqMessage

def deserializeConfirmAck (stream : Stream) (header : MessageHeader) :
    Except Fault ParserResult := do
  let vote ← Vote.ofStream asserts header.blockType stream
  pure (conclude env Vote.block (fun v => .confirmAck ⟨header, v⟩) .invalidConfirmAckMessage vote)

def deserializeBuffer (buffer : Stream) : Except Fault ParserResult :=
  match MessageHeader.deserialize env.toEnv buffer with
  | some (header, stream) =>
    if header.type = MessageType.keepalive.code then deserializeKeepalive asserts stream header
    else if header.type = MessageType.publish.code then
      deserializePublish env asserts stream header
    else if header.type = MessageType.confirmReq.code then
      deserializeConfirmReq env asserts stream header
    else if header.type = MessageType.confirmAck.code then
      deserializeConfirmAck env asserts stream header
    else .ok ⟨.invalidMessageType, []⟩
  | none => .ok ⟨.invalidHeader, []⟩

end MessageParser

end Badem
