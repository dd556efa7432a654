import SignedChain.Acceptance
import SignedChain.Chain.HashRate
import SignedChain.Config.Node
import SignedChain.Document.Json
import SignedChain.Document.JsonWriter
import SignedChain.Header.Bitcoin
import SignedChain.Header.Borsh
import SignedChain.Proofs.Ancestry
import SignedChain.Proofs.BranchRules
import SignedChain.Proofs.ArenaGrowth
import SignedChain.Proofs.BranchVerdict
import SignedChain.Proofs.AcceptedBlocks
import SignedChain.Proofs.ArrivalOrder
import SignedChain.Proofs.PartialHistory
import SignedChain.Proofs.AtomicAcceptance
import SignedChain.Proofs.BlockWork
import SignedChain.Proofs.BranchWork
import SignedChain.Proofs.IntegerRange
import SignedChain.Proofs.PeriodDifficulty
import SignedChain.Proofs.CoinbaseSigning
import SignedChain.Proofs.WireForm
import SignedChain.Proofs.FrozenDifficulty
import SignedChain.Proofs.BackedWork
import SignedChain.Proofs.HeightToken
import SignedChain.Proofs.FastPeriods
import SignedChain.Proofs.RegularAncestor
import SignedChain.Proofs.SignedTokens
import SignedChain.Proofs.DocumentForms
import SignedChain.Proofs.TargetDecision
import SignedChain.Proofs.DigitTexts
import SignedChain.Proofs.EpochOrder
import SignedChain.Proofs.HashRateWindow
import SignedChain.Proofs.AncestorWalks
import SignedChain.Proofs.DigestTruncation
import SignedChain.Proofs.ConsultedVariables
import SignedChain.Proofs.ParamsVariables
import SignedChain.Proofs.UnreadableVariables
