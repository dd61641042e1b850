import SmartCore.SCP.Agreement
import SmartCore.SCP.SelfStatement
import SmartCore.SCP.Persistence
import SmartCore.SCP.Nomination
import SmartCore.SCP.ClosestVBlocking
import SmartCore.SCP.Recursion
import SmartCore.Buckets.ApplyBuckets
import SmartCore.Ledger.Composition
import SmartCore.Ledger.Cache
import SmartCore.Ledger.EntryFrame
import SmartCore.Transactions.SignedContents
import SmartCore.Transactions.Authorization
import SmartCore.Transactions.Meta
import SmartCore.History.CatchupMinimal
import SmartCore.History.DifferingBuckets
import SmartCore.History.ApplyLedgerChain
import SmartCore.History.Publish
import SmartCore.History.InferredQuorum
import SmartCore.Herder.Proposal
import SmartCore.Herder.Fetching
import SmartCore.Overlay.Connections
import SmartCore.Overlay.Floodgate
import SmartCore.Overlay.OverlayManager
import SmartCore.Overlay.TCPPeer
import SmartCore.Work.RunsOnce
import SmartCore.Util.BitsetEnumerator
import SmartCore.Util.Nesting
import SmartCore.Util.Choices
import SmartCore.Util.Timer
import SmartCore.Util.XDRStream
import SmartCore.SCP.NodeInQuorum
import SmartCore.Buckets.LedgerCmp
import SmartCore.Buckets.SkipList
import SmartCore.Buckets.ManagerRefinement
import SmartCore.Buckets.Retention
import SmartCore.Herder.Charging
import SmartCore.Herder.CombineCandidates
import SmartCore.Herder.ExtractValidValue
import SmartCore.Transactions.ManageOffer
import SmartCore.Transactions.Commission
import SmartCore.Transactions.Roles
import SmartCore.Transactions.ReversedOnce
import SmartCore.Util.PermutationEnumerator
import SmartCore.SCP.Newness
import SmartCore.SCP.CommitInterval
import SmartCore.Crypto.TextForms
import SmartCore.Crypto.VerifySig
import SmartCore.Herder.SCPState
import SmartCore.Overlay.Channel
import SmartCore.Overlay.Incoming
import SmartCore.SCP.Validity
import SmartCore.Buckets.ShownLedger
