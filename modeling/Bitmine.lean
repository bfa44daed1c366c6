import Bitmine.Lib.UniqueTable
import Bitmine.Lib.GroupSum
import Bitmine.Lib.Await
import Bitmine.Lib.Rounding
import Bitmine.Lib.Throwing
import Bitmine.Lib.Trace
import Bitmine.Lib.JsonText
import Bitmine.Lib.History
import Bitmine.Lib.Dialogue
import Bitmine.Schema
import Bitmine.Allocation
import Bitmine.Ledger
import Bitmine.LedgerPosting
import Bitmine.AllocateDeposit
import Bitmine.AllocationSpec
import Bitmine.Books
import Bitmine.Security
import Bitmine.Solvency
import Bitmine.Deployment
import Bitmine.Shares
import Bitmine.Deposits
import Bitmine.Payouts
import Bitmine.Execute
import Bitmine.System
import Bitmine.PayoutHistory
import Bitmine.Commitments
import Bitmine.NoOvercommit
import Bitmine.Payloads
import Bitmine.CrashSafety
import Bitmine.Income
import Bitmine.ReorgHalt
import Bitmine.SingleCredit
import Bitmine.StaleScan
import Bitmine.PoolAccounts
import Bitmine.AccountConsistency
import Bitmine.ReceiveAddresses
import Bitmine.WorkAccounts
import Bitmine.Distribution
import Bitmine.Authority
import Bitmine.DailyLimit
import Bitmine.Payable
import Bitmine.StateChanges
import Bitmine.Destinations
import Bitmine.DestinationCycle
import Bitmine.Cooling
import Bitmine.Aggregates
import Bitmine.RollUps
import Bitmine.Relay
import Bitmine.GatewaySession
import Bitmine.SessionHistory
import Bitmine.Correlation
import Bitmine.Acceptance
import Bitmine.JobDifficulty
import Bitmine.Release
import Bitmine.Admission
import Bitmine.Leases
import Bitmine.AdminSessions
import Bitmine.Enrolment
import Bitmine.AuditChain
import Bitmine.ClaimedIdentity
import Bitmine.Apportionment
import Bitmine.RoundedShares
import Bitmine.PayoutPreparation
import Bitmine.BatchAccounts
import Bitmine.Lib.Resources
import Bitmine.LedgerOutflow
import Bitmine.ConcurrentLogins
import Bitmine.Lib.Watch
import Bitmine.OperatorChanges
import Bitmine.Schedule
import Bitmine.PayoutSlots
import Bitmine.NextRun
import Bitmine.ProxyDecision
import Bitmine.Verdicts
import Bitmine.Lib.Utf8
import Bitmine.Lib.JsonParse
import Bitmine.Lib.Lines
import Bitmine.LineJsonPeer
import Bitmine.Framing
import Bitmine.LineLimit
import Bitmine.Lib.Alone
import Bitmine.LatestDue
import Bitmine.BatchPlanning
import Bitmine.PublicPortal
import Bitmine.PositiveItems
import Bitmine.Slugs
import Bitmine.FirstConnection
import Bitmine.Lib.Numeral
import Bitmine.DisplayedMoney
import Bitmine.Envelope
import Bitmine.Base32
import Bitmine.Lib.JsNumber
import Bitmine.Lib.IndexOf
import Bitmine.ConnectTunnel
import Bitmine.IpRules
import Bitmine.CredentialRotation
import Bitmine.PositiveWork
import Bitmine.Lib.PromiseChain
import Bitmine.RpcClient
import Bitmine.ShareRetention
import Bitmine.PrunedRollUps
import Bitmine.Lib.ShortestDecimal
import Bitmine.WalletAmounts
import Bitmine.PoolIdentity
import Bitmine.OperatorCommitments
import Bitmine.PolicyInForce
import Bitmine.UpstreamRuntime
import Bitmine.Lib.FixedWindow
import Bitmine.RateLimits
import Bitmine.Statements
import Bitmine.Broadcasting
import Bitmine.PayloadOrigin
import Bitmine.Lib.Reservation
import Bitmine.AccountRefinement
import Bitmine.Lib.WholeDoubles
import Bitmine.MoneroAmounts
import Bitmine.Authorization
