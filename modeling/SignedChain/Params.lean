import SignedChain.Epoch
import SignedChain.Fault
import SignedChain.Signing.Encoding

/-!
# Consensus parameters

The constants of one network that the difficulty, proof-of-work and coinbase rules
depend on. Presets differ only in two flags. A set is usable if it validates: the
spacing is positive, a period is at least one spacing, and some hash can meet the
proof-of-work limit.
-/
namespace SignedChain

inductive Network
  | mainnet
  | testnet
  | regtest
deriving DecidableEq, Repr

structure Params where
  network : Network
  /-- The easiest target a block may declare. -/
  powLimit : Target
  /-- Seconds that one retarget period should take. -/
  timespan : Int64
  /-- Seconds between blocks that the chain aims for. -/
  spacing : Int64
  /-- Inside a period, a block stamped more than two spacings after its parent has to use the
  easiest target. -/
  allowMinDifficulty : Bool
  /-- Every block repeats the bits of its parent. -/
  noRetargeting : Bool
  epochs : EpochSchedule
  signerKey : Point Fq2
  /-- The first height whose coinbase must be signed. -/
  signatureHeight : UInt32
deriving DecidableEq

namespace Params

inductive Error
  | unknownNetwork (name : String)
  | nonPositiveSpacing (spacing : Int)
  | timespanShorterThanSpacing (timespan spacing : Int)
  | zeroPowLimit
deriving DecidableEq, Repr

def Error.message : Error → String
  | .unknownNetwork name => "Unknown network: " ++ name
  | .nonPositiveSpacing spacing => "Target spacing must be positive, got " ++ toString spacing
  | .timespanShorterThanSpacing timespan spacing =>
    "Target timespan " ++ toString timespan ++ " is shorter than one block spacing ("
      ++ toString spacing ++ ")"
  | .zeroPowLimit => "Proof-of-work limit must not be zero"

end Params

namespace Network

def name : Network → String
  | mainnet => "mainnet"
  | testnet => "testnet"
  | regtest => "regtest"

def parse (text : String) : Except Params.Error Network :=
  if text = "mainnet" ∨ text = "main" then .ok mainnet
  else if text = "testnet" ∨ text = "test" then .ok testnet
  else if text = "regtest" then .ok regtest
  else .error (.unknownNetwork text)

end Network

namespace Params

def standardSigner : Point Fq2 := .affine
  ⟨Fq.ofNat 10484496199438623825313844397982952883232983479511461851657584931484895921028,
    Fq.ofNat 9155174947146590726568987734284251141112791787120372621075216371600604336752⟩
  ⟨Fq.ofNat 2852310834343865022949024145751767404812444283843105773539720924192606476889,
    Fq.ofNat 2197607275708464777704055525818106010466372700857820754032530758722270557353⟩

/-- The preset of a network: half a week a period, two and a half minutes a block. -/
def preset (network : Network) : Params where
  network := network
  powLimit := Target.ofNat ((2 ^ 23 - 1) * 2 ^ 232)
  timespan := 302400
  spacing := 150
  allowMinDifficulty := network != .mainnet
  noRetargeting := network != .testnet
  epochs := EpochSchedule.standard
  signerKey := standardSigner
  signatureHeight := 0

def interval (p : Params) : Except Fault Int := Fault.quotient p.timespan.toInt p.spacing.toInt

def validate (p : Params) : Except Error Unit :=
  if p.spacing ≤ 0 then .error (.nonPositiveSpacing p.spacing.toInt)
  else if p.timespan < p.spacing then
    .error (.timespanShorterThanSpacing p.timespan.toInt p.spacing.toInt)
  else if p.powLimit.isZero then .error .zeroPowLimit
  else .ok ()

end Params
end SignedChain
