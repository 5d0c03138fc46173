import Brokerage.Main
import Brokerage.Json.Content
import Brokerage.Scripted
import Brokerage.Proofs.Position
import Brokerage.Proofs.Feed
import Brokerage.Proofs.Item
import Brokerage.Proofs.Run
import Brokerage.Proofs.TradeLog
import Brokerage.Proofs.Frame
import Brokerage.Proofs.Reply
import Brokerage.Proofs.Resumption
import Brokerage.Proofs.Retry
import Brokerage.Proofs.Tape
import Brokerage.Proofs.OrderFlow
import Brokerage.Proofs.History
import Brokerage.Proofs.Resting
import Brokerage.Proofs.Rounds
import Brokerage.Proofs.Recorded
import Brokerage.Proofs.Digest
import Brokerage.Proofs.Ending
import Brokerage.Proofs.ClientEnding
import Brokerage.Proofs.Calm
import Brokerage.Proofs.Asked
import Brokerage.Proofs.Attempts
import Brokerage.Proofs.StepRequests
import Brokerage.Proofs.Trail
import Brokerage.Proofs.Results
import Brokerage.Proofs.LastStep
import Brokerage.Proofs.Discipline
import Brokerage.Proofs.Journal
import Brokerage.Proofs.TrailShape
import Brokerage.Proofs.Accounting
import Brokerage.Proofs.TrailLines
import Brokerage.Proofs.Forms
import Brokerage.Proofs.Validity
import Brokerage.Proofs.OrderText
import Brokerage.Proofs.MessageText
import Brokerage.Proofs.Batches
import Brokerage.Proofs.PlanOrder
import Brokerage.Proofs.Planned
import Brokerage.Proofs.MarketView
import Brokerage.Proofs.Report
import Brokerage.Proofs.Limits
import Brokerage.Proofs.Finite
import Brokerage.Proofs.Tolerance
import Brokerage.Proofs.Valuation
import Brokerage.Proofs.Requests
import Brokerage.Proofs.Atomic
import Brokerage.Proofs.Failure
import Brokerage.Proofs.Members
import Brokerage.Proofs.OrderDecoders
import Brokerage.Proofs.Rearranged
import Brokerage.Proofs.Indifferent
import Brokerage.Proofs.Arrivals
import Brokerage.Proofs.Flush
import Brokerage.Proofs.Holdings
import Brokerage.Proofs.Backoff
