import SignedChain.Chain.Arena
import SignedChain.Chain.Difficulty
import SignedChain.Signing.Coinbase

/-!
# Header acceptance

The checks a header passes before it is stored: it is new and extends a stored
block, declares the required bits, meets its target, and from the activation height
on comes with a coinbase that the network signer has signed. `validate` reports the
first check that fails; `accept` stores the header if none does and otherwise leaves
the arena as it was.

To meet its target, a header's hash has to be at most the target its bits expand to, and
that target positive and at most the network's limit. Where a target reset applies, its
limit takes the place of both, but the bits still have to be well formed.
-/
namespace SignedChain

/-- The target a header is held to and the ceiling on it. -/
def Params.ceiling (p : Params) (bits : Compact) (time : UInt32) : Target × Target :=
  match p.epochs.override? time bits.value with
  | some limit => (limit, limit)
  | none => (bits.value, p.powLimit)

def meetsTarget (hash : BlockHash) (bits : Compact) (p : Params) (time : UInt32) : Bool :=
  let (target, limit) := p.ceiling bits time
  bits.expand.valid && !target.isZero && target ≤ limit && hash.toTarget ≤ target

def Params.requiresSignature (p : Params) (height : Nat) : Bool :=
  p.signatureHeight.toNat ≤ height

def Params.authorizes (p : Params) (height : Nat) (script parent : String) : Bool :=
  !p.requiresSignature height || networkScheme.verifyCoinbase script parent p.signerKey

inductive Rejection
  | unknownParent (hash : BlockHash)
  | duplicate (hash : BlockHash)
  | badBits (expected got : Compact)
  | highHash (hash : BlockHash)
  | unauthorizedCoinbase (height : Nat)
deriving DecidableEq

def Rejection.message : Rejection → String
  | unknownParent hash => "Parent block " ++ hash.text ++ " is unknown"
  | duplicate hash => "Block " ++ hash.text ++ " is already known"
  | badBits expected got =>
    "Incorrect proof-of-work bits: expected " ++ expected.text ++ ", got " ++ got.text
  | highHash hash => "Block hash " ++ hash.text ++ " does not satisfy its proof of work"
  | unauthorizedCoinbase height =>
    "Coinbase of block at height " ++ toString height ++ " is not signed by the network signer"

/-- How an attempt to accept a header can end without storing it. -/
inductive Refusal
  | rejected (reason : Rejection)
  | notStored (cause : Arena.Error)
  | fault (cause : Fault)
deriving DecidableEq

/-- The text of a refusal that has one. -/
def Refusal.message? : Refusal → Option String
  | rejected reason => some ("Header rejected: " ++ reason.message)
  | notStored cause => some ("Block index error: " ++ cause.message)
  | fault cause => cause.message?

namespace Arena

/-- The checks after the parent has been found. -/
def checkOn (p : Params) (a : Arena) (parent : Block) (header : Header) (script : String) :
    Except Refusal Unit :=
  match Difficulty.required a.history p (some parent) header.time header.bits with
  | .error cause => .error (.fault cause)
  | .ok expected =>
    if header.bits ≠ expected then .error (.rejected (.badBits expected header.bits))
    else if !meetsTarget header.hash header.bits p header.time then
      .error (.rejected (.highHash header.hash))
    -- heights have 32 bits
    else if 2 ^ 32 ≤ parent.height + 1 then .error (.fault .overflow)
    else if !p.authorizes (parent.height + 1) script parent.hash.text then
      .error (.rejected (.unauthorizedCoinbase (parent.height + 1)))
    else .ok ()

def validate (p : Params) (a : Arena) (header : Header) (script : String) :
    Except Refusal BlockHash :=
  if (a.lookup? header.hash).isSome then .error (.rejected (.duplicate header.hash))
  else
    match a.lookup? header.parent with
    | none => .error (.rejected (.unknownParent header.parent))
    | some parent => (a.checkOn p parent header script).map fun _ => header.hash

def accept (p : Params) (a : Arena) (header : Header) (script : String) :
    Except Refusal (Nat × Arena) :=
  match a.validate p header script with
  | .error refusal => .error refusal
  | .ok _ =>
    match a.insert header with
    | .ok result => .ok result
    | .error cause => .error (.notStored cause)

end Arena
end SignedChain
