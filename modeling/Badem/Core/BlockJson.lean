import Badem.Core.NumberText

/-!
# Blocks as JSON

The JSON texts of the five block formats in `lib/blocks.cpp`, after the text has been parsed
into a tree.  The constructors are called by `deserialize_block_json`; the members
`deserialize_json` overwrite the fields of an existing block.

The default build leaves the assertions out, so they have a switch: without them the members
do not look at the type, and `decode_account` reads any character from `0` up to 0x7f.
-/

namespace Badem

/-- A property tree without nesting. -/
abbrev JsonTree := String → Option Text

namespace JsonTree

def empty : JsonTree := fun _ => none

def put (tree : JsonTree) (key : String) (value : Text) : JsonTree :=
  fun k => if k = key then some value else tree k

end JsonTree

inductive JsonFailure
  | error
  | assertion
deriving DecidableEq

abbrev Decoded := Except JsonFailure

def decoded {α : Type} : Option α → Decoded α
  | some a => .ok a
  | none => .error .error

def decodedAccount : Except Fault (Option Account) → Decoded Account
  | .ok (some a) => .ok a
  | .ok none => .error .error
  | .error _ => .error .assertion

def JsonTree.get (tree : JsonTree) (key : String) : Decoded Text := decoded (tree key)

/-- The assertion that the tree names a type; without assertions the field is not read. -/
def assertJson (asserts : Bool) (tree : JsonTree) (type : Text) : Decoded Unit :=
  if asserts = true then do
    if (← tree.get "type") = type then pure () else throw .assertion
  else pure ()

/-! ## Addresses -/

/-- The loop of `decode_account` without the assertions of `account_decode`.  The character 0x7f
is looked up at the zero that ends the table. -/
def decodeDigitsRelease : Text → Uint512 → Option Uint512
  | [], number => some number
  | character :: rest, number =>
    if character < 0x30 ∨ 0x80 ≤ character then none
    else
      let byte := accountReverse.getD (character - 0x30).toNat 0 - 0x30
      if byte = 0x7e then none
      else decodeDigitsRelease rest ((number <<< 5) + byte.setWidth 512)

def decodeAccountRelease (check : Account → BitVec 40) (source : Text) : Option Account :=
  if source.length < 5 then none
  else if startsBdm source = true ∧ source.length ≠ 64 then none
  else if startsBdm source = true then
    let i := source.drop 4
    if i.head? = some 0x31 ∨ i.head? = some 0x33 then
      (decodeDigitsRelease i 0).bind (accountOfNumber check)
    else none
  else none

/-- `decode_account` in a build with or without assertions. -/
def decodeAccountIn (asserts : Bool) (check : Account → BitVec 40) (source : Text) :
    Except Fault (Option Account) :=
  if asserts = true then decodeAccount check source else .ok (decodeAccountRelease check source)

section Decoders

-- whether there are assertions, the checksum function of addresses, and what the variable that
-- `from_string_hex` reads into holds before
variable (asserts : Bool) (check : Account → BitVec 40) (junk : Uint64)

/-! ## Constructors -/

def SendHashables.ofJson (tree : JsonTree) : Decoded SendHashables := do
  let previousL ← tree.get "previous"
  let destinationL ← tree.get "destination"
  let balanceL ← tree.get "balance"
  let previous ← decoded (Uint256.decodeHex previousL)
  let destination ← decodedAccount (decodeAccountIn asserts check destinationL)
  let balance ← decoded (Uint128.decodeHex balanceL)
  pure ⟨previous, destination, balance⟩

def SendBlock.ofJson (tree : JsonTree) : Decoded SendBlock := do
  let hashables ← SendHashables.ofJson asserts check tree
  let signatureL ← tree.get "signature"
  let workL ← tree.get "work"
  let signature ← decoded (Uint512.decodeHex signatureL)
  let work ← decoded (fromStringHex junk workL)
  pure ⟨hashables, signature, work⟩

def ReceiveHashables.ofJson (tree : JsonTree) : Decoded ReceiveHashables := do
  let previousL ← tree.get "previous"
  let sourceL ← tree.get "source"
  let previous ← decoded (Uint256.decodeHex previousL)
  let source ← decoded (Uint256.decodeHex sourceL)
  pure ⟨previous, source⟩

def ReceiveBlock.ofJson (tree : JsonTree) : Decoded ReceiveBlock := do
  let hashables ← ReceiveHashables.ofJson tree
  let signatureL ← tree.get "signature"
  let workL ← tree.get "work"
  let signature ← decoded (Uint512.decodeHex signatureL)
  let work ← decoded (fromStringHex junk workL)
  pure ⟨hashables, signature, work⟩

def OpenHashables.ofJson (tree : JsonTree) : Decoded OpenHashables := do
  let sourceL ← tree.get "source"
  let representativeL ← tree.get "representative"
  let accountL ← tree.get "account"
  let source ← decoded (Uint256.decodeHex sourceL)
  let representative ← decodedAccount (decodeAccountIn asserts check representativeL)
  let account ← decodedAccount (decodeAccountIn asserts check accountL)
  pure ⟨source, representative, account⟩

def OpenBlock.ofJson (tree : JsonTree) : Decoded OpenBlock := do
  let hashables ← OpenHashables.ofJson asserts check tree
  let workL ← tree.get "work"
  let signatureL ← tree.get "signature"
  let work ← decoded (fromStringHex junk workL)
  let signature ← decoded (Uint512.decodeHex signatureL)
  pure ⟨hashables, signature, work⟩

def ChangeHashables.ofJson (tree : JsonTree) : Decoded ChangeHashables := do
  let previousL ← tree.get "previous"
  let representativeL ← tree.get "representative"
  let previous ← decoded (Uint256.decodeHex previousL)
  let representative ← decodedAccount (decodeAccountIn asserts check representativeL)
  pure ⟨previous, representative⟩

def ChangeBlock.ofJson (tree : JsonTree) : Decoded ChangeBlock := do
  let hashables ← ChangeHashables.ofJson asserts check tree
  let workL ← tree.get "work"
  let signatureL ← tree.get "signature"
  let work ← decoded (fromStringHex junk workL)
  let signature ← decoded (Uint512.decodeHex signatureL)
  pure ⟨hashables, signature, work⟩

def decodeLink (linkL : Text) : Decoded Uint256 :=
  match decodeAccountIn asserts check linkL with
  | .ok (some account) => .ok account
  | .ok none => decoded (Uint256.decodeHex linkL)
  | .error _ => .error .assertion

def StateHashables.ofJson (tree : JsonTree) : Decoded StateHashables := do
  let accountL ← tree.get "account"
  let previousL ← tree.get "previous"
  let representativeL ← tree.get "representative"
  let balanceL ← tree.get "balance"
  let linkL ← tree.get "link"
  let account ← decodedAccount (decodeAccountIn asserts check accountL)
  let previous ← decoded (Uint256.decodeHex previousL)
  let representative ← decodedAccount (decodeAccountIn asserts check representativeL)
  let balance ← decoded (Uint128.decodeDec balanceL)
  let link ← decodeLink asserts check linkL
  pure ⟨account, previous, representative, balance, link⟩

def StateBlock.ofJson (tree : JsonTree) : Decoded StateBlock := do
  let hashables ← StateHashables.ofJson asserts check tree
  let typeL ← tree.get "type"
  let signatureL ← tree.get "signature"
  let workL ← tree.get "work"
  -- the only constructor that looks at the type
  decoded (if typeL ≠ ascii "state" then none else some ())
  let work ← decoded (fromStringHex junk workL)
  let signature ← decoded (Uint512.decodeHex signatureL)
  pure ⟨hashables, signature, work⟩

def deserializeBlockJson (tree : JsonTree) : Decoded Block := do
  let type ← tree.get "type"
  if type = ascii "receive" then .receiveBlock <$> ReceiveBlock.ofJson junk tree
  else if type = ascii "send" then .sendBlock <$> SendBlock.ofJson asserts check junk tree
  else if type = ascii "open" then .openBlock <$> OpenBlock.ofJson asserts check junk tree
  else if type = ascii "change" then .changeBlock <$> ChangeBlock.ofJson asserts check junk tree
  else if type = ascii "state" then .stateBlock <$> StateBlock.ofJson asserts check junk tree
  else .error .error

/-! ## Members -/

def SendBlock.deserializeJson (tree : JsonTree) : Decoded SendBlock := do
  assertJson asserts tree (ascii "send")
  let previousL ← tree.get "previous"
  let destinationL ← tree.get "destination"
  let balanceL ← tree.get "balance"
  let workL ← tree.get "work"
  let signatureL ← tree.get "signature"
  let previous ← decoded (Uint256.decodeHex previousL)
  let destination ← decodedAccount (decodeAccountIn asserts check destinationL)
  let balance ← decoded (Uint128.decodeHex balanceL)
  let work ← decoded (fromStringHex junk workL)
  let signature ← decoded (Uint512.decodeHex signatureL)
  pure ⟨⟨previous, destination, balance⟩, signature, work⟩

def ReceiveBlock.deserializeJson (tree : JsonTree) : Decoded ReceiveBlock := do
  assertJson asserts tree (ascii "receive")
  let previousL ← tree.get "previous"
  let sourceL ← tree.get "source"
  let workL ← tree.get "work"
  let signatureL ← tree.get "signature"
  let previous ← decoded (Uint256.decodeHex previousL)
  let source ← decoded (Uint256.decodeHex sourceL)
  let work ← decoded (fromStringHex junk workL)
  let signature ← decoded (Uint512.decodeHex signatureL)
  pure ⟨⟨previous, source⟩, signature, work⟩

/-- The member reads representative and account as hexadecimal numbers, unlike the
constructor. -/
def OpenBlock.deserializeJson (tree : JsonTree) : Decoded OpenBlock := do
  assertJson asserts tree (ascii "open")
  let sourceL ← tree.get "source"
  let representativeL ← tree.get "representative"
  let accountL ← tree.get "account"
  let workL ← tree.get "work"
  let signatureL ← tree.get "signature"
  let source ← decoded (Uint256.decodeHex sourceL)
  let representative ← decoded (Uint256.decodeHex representativeL)
  let account ← decoded (Uint256.decodeHex accountL)
  let work ← decoded (fromStringHex junk workL)
  let signature ← decoded (Uint512.decodeHex signatureL)
  pure ⟨⟨source, representative, account⟩, signature, work⟩

/-- The member reads the representative as a hexadecimal number, unlike the constructor. -/
def ChangeBlock.deserializeJson (tree : JsonTree) : Decoded ChangeBlock := do
  assertJson asserts tree (ascii "change")
  let previousL ← tree.get "previous"
  let representativeL ← tree.get "representative"
  let workL ← tree.get "work"
  let signatureL ← tree.get "signature"
  let previous ← decoded (Uint256.decodeHex previousL)
  let representative ← decoded (Uint256.decodeHex representativeL)
  let work ← decoded (fromStringHex junk workL)
  let signature ← decoded (Uint512.decodeHex signatureL)
  pure ⟨⟨previous, representative⟩, signature, work⟩

def StateBlock.deserializeJson (tree : JsonTree) : Decoded StateBlock := do
  assertJson asserts tree (ascii "state")
  let accountL ← tree.get "account"
  let previousL ← tree.get "previous"
  let representativeL ← tree.get "representative"
  let balanceL ← tree.get "balance"
  let linkL ← tree.get "link"
  let workL ← tree.get "work"
  let signatureL ← tree.get "signature"
  let account ← decodedAccount (decodeAccountIn asserts check accountL)
  let previous ← decoded (Uint256.decodeHex previousL)
  let representative ← decodedAccount (decodeAccountIn asserts check representativeL)
  let balance ← decoded (Uint128.decodeDec balanceL)
  let link ← decodeLink asserts check linkL
  let work ← decoded (fromStringHex junk workL)
  let signature ← decoded (Uint512.decodeHex signatureL)
  pure ⟨⟨account, previous, representative, balance, link⟩, signature, work⟩

def Block.deserializeJson (type : BlockType) (tree : JsonTree) : Decoded Block :=
  match type with
  | .send => .sendBlock <$> SendBlock.deserializeJson asserts check junk tree
  | .receive => .receiveBlock <$> ReceiveBlock.deserializeJson asserts junk tree
  | .opening => .openBlock <$> OpenBlock.deserializeJson asserts junk tree
  | .change => .changeBlock <$> ChangeBlock.deserializeJson asserts junk tree
  | .state => .stateBlock <$> StateBlock.deserializeJson asserts check junk tree

end Decoders

/-! ## Encoders -/

def Block.serializeJson (check : Account → BitVec 40) : Block → JsonTree
  | .sendBlock b =>
    JsonTree.empty.put "type" (ascii "send")
    |>.put "previous" (Uint256.encodeHex b.hashables.previous)
    |>.put "destination" (toAccount check b.hashables.destination)
    |>.put "balance" (Uint128.encodeHex b.hashables.balance)
    |>.put "work" (toStringHex b.work)
    |>.put "signature" (Uint512.encodeHex b.signature)
  | .receiveBlock b =>
    JsonTree.empty.put "type" (ascii "receive")
    |>.put "previous" (Uint256.encodeHex b.hashables.previous)
    |>.put "source" (Uint256.encodeHex b.hashables.source)
    |>.put "work" (toStringHex b.work)
    |>.put "signature" (Uint512.encodeHex b.signature)
  | .openBlock b =>
    JsonTree.empty.put "type" (ascii "open")
    |>.put "source" (Uint256.encodeHex b.hashables.source)
    |>.put "representative" (toAccount check b.hashables.representative)
    |>.put "account" (toAccount check b.hashables.account)
    |>.put "work" (toStringHex b.work)
    |>.put "signature" (Uint512.encodeHex b.signature)
  | .changeBlock b =>
    JsonTree.empty.put "type" (ascii "change")
    |>.put "previous" (Uint256.encodeHex b.hashables.previous)
    |>.put "representative" (toAccount check b.hashables.representative)
    |>.put "work" (toStringHex b.work)
    |>.put "signature" (Uint512.encodeHex b.signature)
  | .stateBlock b =>
    JsonTree.empty.put "type" (ascii "state")
    |>.put "account" (toAccount check b.hashables.account)
    |>.put "previous" (Uint256.encodeHex b.hashables.previous)
    |>.put "representative" (toAccount check b.hashables.representative)
    |>.put "balance" (Uint128.toStringDec b.hashables.balance)
    |>.put "link" (Uint256.encodeHex b.hashables.link)
    |>.put "link_as_account" (toAccount check b.hashables.link)
    |>.put "signature" (Uint512.encodeHex b.signature)
    |>.put "work" (toStringHex b.work)

end Badem
