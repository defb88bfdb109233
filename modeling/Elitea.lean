import Elitea.Lib.Runs
import Elitea.Lib.Sums
import Elitea.Lib.Tx
import Elitea.Lib.Spans
import Elitea.Lib.Fallible
import Elitea.Failmode.Counter
import Elitea.Failmode.Fsm
import Elitea.Failmode.Holds
import Elitea.Failmode.Proofs.Reservations
import Elitea.Failmode.Proofs.Holds
import Elitea.Policy.RateLimit
import Elitea.Policy.Proofs.Admission
import Elitea.Budget.Store
import Elitea.Budget.Writeback
import Elitea.Budget.Recovery
import Elitea.Budget.Proofs.Writes
import Elitea.Budget.Proofs.ExactlyOnce
import Elitea.Budget.Proofs.Rounding
import Elitea.Budget.Proofs.Accounting
import Elitea.Budget.Proofs.Undercount
import Elitea.Guardrail.Mask
import Elitea.Guardrail.Stream
import Elitea.Guardrail.Proofs.Mask
import Elitea.Guardrail.Proofs.Words
import Elitea.Guardrail.Proofs.Release
import Elitea.Guardrail.Proofs.NoRawRelease
import Elitea.Guardrail.Proofs.Agreement
import Elitea.Handoff.Row
import Elitea.Handoff.LocalTurn
import Elitea.Handoff.Store
import Elitea.Handoff.Thread
import Elitea.Handoff.Owner
import Elitea.Handoff.Sweep
import Elitea.Handoff.Orphans
import Elitea.Handoff.Storage
import Elitea.Lib.Statements
import Elitea.Handoff.Quota
import Elitea.Handoff.Proofs.Steps
import Elitea.Handoff.Proofs.HeadChain
import Elitea.Handoff.Proofs.Owner
import Elitea.Handoff.Proofs.Sweep
import Elitea.Handoff.Proofs.Orphans
import Elitea.Handoff.Proofs.Storage
import Elitea.Handoff.Proofs.Erasure
import Elitea.Handoff.Proofs.LiveObjects
import Elitea.Handoff.Proofs.Quota
import Elitea.Lib.Sessions
import Elitea.Lib.PrunedLog
import Elitea.Executions.Tables
import Elitea.Executions.Claims
import Elitea.Executions.Outputs
import Elitea.Executions.Replay
import Elitea.Executions.System
import Elitea.Executions.Proofs.Claims
import Elitea.Executions.Proofs.Outputs
import Elitea.Executions.Proofs.Commits
import Elitea.Executions.Proofs.Authority
import Elitea.Executions.Proofs.Log
import Elitea.Executions.Proofs.OutputLog
import Elitea.Executions.Proofs.Settlement
import Elitea.Executions.Proofs.Acknowledge
import Elitea.Executions.Proofs.Admission
import Elitea.Executions.Proofs.Reader
import Elitea.Executions.Proofs.Stream
import Elitea.Pricing.Calculator
import Elitea.Pricing.Proofs.Exact
import Elitea.Lib.Utf8
import Elitea.Lib.Walk
import Elitea.Lib.JsonText
import Elitea.Lib.JsonQuote
import Elitea.Lib.JsonReads
import Elitea.Guardrail.ToolArgs
import Elitea.Guardrail.Proofs.ToolArgs
import Elitea.Lib.Runes
import Elitea.Guardrail.Units
import Elitea.Guardrail.Proofs.Units
import Elitea.Guardrail.Proofs.Parts
import Elitea.Lib.Lines
import Elitea.Policy.Proofs.BucketKeys
import Elitea.Lib.Digits
import Elitea.Graph.ExactNumber
import Elitea.Graph.Proofs.ExactNumber
import Elitea.Lib.Members
import Elitea.Lib.JsonValue
import Elitea.Lib.JsonPlain
import Elitea.Graph.Reducers
import Elitea.Graph.Proofs.Reducers
import Elitea.Graph.Plan
import Elitea.Graph.Proofs.Land
import Elitea.Graph.Proofs.Join
import Elitea.Lib.Pairs
import Elitea.Lib.Scan
import Elitea.LocalTools.Lines
import Elitea.LocalTools.Edit
import Elitea.LocalTools.Proofs.EditPlaces
import Elitea.LocalTools.Proofs.Edit
import Elitea.Lib.Splice
import Elitea.LocalTools.Envelope
import Elitea.LocalTools.Proofs.EnvelopeSeek
import Elitea.LocalTools.Proofs.Envelope
import Elitea.Context.Compaction
import Elitea.Context.Proofs.Compaction
import Elitea.Context.Elision
import Elitea.Context.Proofs.Elision
import Elitea.Lib.Wire
import Elitea.Egress.ClientHello
import Elitea.Egress.Grammar
import Elitea.Egress.Proofs.Parse
import Elitea.Egress.Proofs.Peek
