import SecureExchange.Accounting
import SecureExchange.AddressText
import SecureExchange.AtMostOnce
import SecureExchange.Atomicity
import SecureExchange.BankRefinement
import SecureExchange.BuildProfiles
import SecureExchange.CommandLine
import SecureExchange.Commutation
import SecureExchange.Concurrent
import SecureExchange.Confirmation
import SecureExchange.Deliverable
import SecureExchange.Delivery
import SecureExchange.Emission
import SecureExchange.EnvelopeIntegrity
import SecureExchange.Frame
import SecureExchange.FrameSequence
import SecureExchange.GossipConvergence
import SecureExchange.Incoming
import SecureExchange.Library.Bank
import SecureExchange.Library.Completion
import SecureExchange.Library.Following
import SecureExchange.Library.Handles
import SecureExchange.Library.RlpReader
import SecureExchange.Linearizability
import SecureExchange.LockDiscipline
import SecureExchange.NonceOrder
import SecureExchange.Ownership
import SecureExchange.Quiescence
import SecureExchange.Reconciliation
import SecureExchange.RequestResponse
import SecureExchange.ResourceDiscipline
import SecureExchange.SecureSession
import SecureExchange.Shortfall
import SecureExchange.Snapshot
import SecureExchange.StateHistory
import SecureExchange.TamperEvidence
import SecureExchange.Traffic
import SecureExchange.Wire
import SecureExchange.WireDiscipline
import SecureExchange.WireOwnership
