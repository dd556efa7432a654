import SignedChain.Document.Tree
import SignedChain.Header
import SignedChain.Params

/-!
# Document forms of headers, epochs and parameters

How records appear in documents. A header is a record with its byte strings as lists
of numbers; a parameter set is a record with targets and keys as hexadecimal text.
An epoch entry is a table whose `kind` says which other fields it has. Fields that
no form knows are ignored; the epoch table and the signature height may be absent
from a parameter set.
-/
namespace SignedChain

namespace Bytes

def toTree {n : Nat} (b : Bytes n) : Tree := .list (b.toList.map fun x => .unsigned x.toNat)

def ofTree? (n : Nat) (t : Tree) : Option (Bytes n) := do
  ofList? n (← (← t.list?).mapM Tree.uint8?)

end Bytes

namespace Target

def toTree (t : Target) : Tree := .text t.text

def ofTree? (t : Tree) : Option Target := do (parse (← t.text?)).toOption

end Target

namespace Header

def fieldNames : List String :=
  ["version", "prev_block_hash", "merkle_root", "time", "bits", "nonce"]

def toTree (h : Header) : Tree := .table
  [("version", .signed h.version.toInt), ("prev_block_hash", h.parent.wire.toTree),
    ("merkle_root", h.merkleRoot.toTree), ("time", .unsigned h.time.toNat),
    ("bits", .unsigned h.bits.bits.toNat), ("nonce", .unsigned h.nonce.toNat)]

def ofTree? (t : Tree) : Option Header := do
  let fields ← t.record? fieldNames
  return {
    version := ← (← fields.lookup "version").int32?
    parent := ⟨← Bytes.ofTree? 32 (← fields.lookup "prev_block_hash")⟩
    merkleRoot := ← Bytes.ofTree? 32 (← fields.lookup "merkle_root")
    time := ← (← fields.lookup "time").uint32?
    bits := ⟨← (← fields.lookup "bits").uint32?⟩
    nonce := ← (← fields.lookup "nonce").uint32? }

end Header

namespace EpochEntry

/-- Which rule an entry has; a number is its position among the rules. -/
inductive Kind
  | legacyAcceptance
  | targetReset
deriving DecidableEq

def Kind.ofTree? : Tree → Option Kind
  | .text "legacy-acceptance" | .unsigned 0 => some .legacyAcceptance
  | .text "target-reset" | .unsigned 1 => some .targetReset
  | _ => none

def toTree (e : EpochEntry) : Tree :=
  match e.rule with
  | .legacyAcceptance last => .table
    [("activation_time", .unsigned e.activation.toNat), ("kind", .text "legacy-acceptance"),
      ("until", .unsigned last.toNat)]
  | .targetReset stop sentinel limit => .table
    [("activation_time", .unsigned e.activation.toNat), ("kind", .text "target-reset"),
      ("until", .unsigned stop.toNat), ("sentinel", .unsigned sentinel.bits.toNat),
      ("reset_limit", limit.toTree)]

def ruleOf? (kind : Kind) (entries : List (String × Tree)) : Option EpochRule := do
  match kind with
  | .legacyAcceptance =>
    let fields ← Tree.select? ["until"] entries
    return .legacyAcceptance (← (← fields.lookup "until").uint32?)
  | .targetReset =>
    let fields ← Tree.select? ["until", "sentinel", "reset_limit"] entries
    return .targetReset (← (← fields.lookup "until").uint32?)
      ⟨← (← fields.lookup "sentinel").uint32?⟩
      (← Target.ofTree? (← fields.lookup "reset_limit"))

def ofTree? (t : Tree) : Option EpochEntry := do
  let entries ← t.table?
  let fields ← Tree.select? ["activation_time", "kind"] entries
  return {
    activation := ← (← fields.lookup "activation_time").uint32?
    rule := ← ruleOf? (← Kind.ofTree? (← fields.lookup "kind")) entries }

end EpochEntry

namespace EpochSchedule

def toTree (s : EpochSchedule) : Tree := .list (s.entries.map EpochEntry.toTree)

def ofTree? (t : Tree) : Option EpochSchedule := do
  return ofList (← (← t.list?).mapM EpochEntry.ofTree?)

end EpochSchedule

namespace Network

def ofName? : String → Option Network
  | "mainnet" => some mainnet
  | "testnet" => some testnet
  | "regtest" => some regtest
  | _ => none

def ofTree? (d : Tree.Dialect) (t : Tree) : Option Network := do ofName? (← t.alternative? d)

end Network

namespace SignerKey

def toTree (key : Point Fq2) : Tree := .text (text key)

def ofTree? (t : Tree) : Option (Point Fq2) := do (parse (← t.text?)).toOption

end SignerKey

namespace Params

def fieldNames : List String :=
  ["network", "pow_limit", "pow_target_timespan", "pow_target_spacing",
    "allow_min_difficulty_blocks", "no_retargeting", "epochs", "signer_key",
    "coinbase_signature_height"]

def toTree (p : Params) : Tree := .table
  [("network", .text p.network.name), ("pow_limit", p.powLimit.toTree),
    ("pow_target_timespan", .signed p.timespan.toInt),
    ("pow_target_spacing", .signed p.spacing.toInt),
    ("allow_min_difficulty_blocks", .bool p.allowMinDifficulty),
    ("no_retargeting", .bool p.noRetargeting), ("epochs", p.epochs.toTree),
    ("signer_key", SignerKey.toTree p.signerKey),
    ("coinbase_signature_height", .unsigned p.signatureHeight.toNat)]

def ofTree? (d : Tree.Dialect) (t : Tree) : Option Params := do
  let fields ← t.record? fieldNames
  return {
    network := ← Network.ofTree? d (← fields.lookup "network")
    powLimit := ← Target.ofTree? (← fields.lookup "pow_limit")
    timespan := ← (← fields.lookup "pow_target_timespan").int64?
    spacing := ← (← fields.lookup "pow_target_spacing").int64?
    allowMinDifficulty := ← (← fields.lookup "allow_min_difficulty_blocks").bool?
    noRetargeting := ← (← fields.lookup "no_retargeting").bool?
    epochs := ← (fields.lookup "epochs").elim (some EpochSchedule.standard) EpochSchedule.ofTree?
    signerKey := ← SignerKey.ofTree? (← fields.lookup "signer_key")
    signatureHeight := ←
      (fields.lookup "coinbase_signature_height").elim (some 0) Tree.uint32? }

end Params
end SignedChain
