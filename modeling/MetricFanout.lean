import MetricFanout.Cache.Sweeper
import MetricFanout.FrontEnd.Server
import MetricFanout.Gather.Timetable
import MetricFanout.Main
import MetricFanout.Permits.Desk
import MetricFanout.Signal
import MetricFanout.Proofs.Gather.Floor
import MetricFanout.Proofs.Gather.Schedule
import MetricFanout.Proofs.Gather.Solo
import MetricFanout.Proofs.Gather.Dispatch
import MetricFanout.Proofs.Gather.Refinement
import MetricFanout.Proofs.Cache.Lookup
import MetricFanout.Proofs.Merge.Distinct
import MetricFanout.Proofs.Merge.Find
import MetricFanout.Proofs.Merge.Render
import MetricFanout.Proofs.Gather.Sound
import MetricFanout.Proofs.Engine.History
import MetricFanout.Proofs.Engine.Recall
import MetricFanout.Proofs.Engine.PathCache
import MetricFanout.Proofs.Engine.Reach
import MetricFanout.Proofs.Engine.Narrowing
import MetricFanout.Proofs.Engine.Provenance
import MetricFanout.Proofs.Reply.Tally
import MetricFanout.Proofs.Gather.Verdict
import MetricFanout.Proofs.Engine.Deeds
import MetricFanout.Proofs.Engine.Waits
import MetricFanout.Proofs.Engine.Watch
import MetricFanout.Proofs.Engine.Balance
import MetricFanout.Proofs.Engine.Budget
import MetricFanout.Proofs.Merge.Firsts
import MetricFanout.Proofs.Engine.Leaves
import MetricFanout.Proofs.Engine.Union
import MetricFanout.Proofs.Merge.Summary
import MetricFanout.Proofs.Merge.Info
import MetricFanout.Proofs.Merge.Arrival
import MetricFanout.Proofs.Cache.StampedMap
import MetricFanout.Proofs.Cache.Refinement
import MetricFanout.Proofs.Permits.Tickets
import MetricFanout.Proofs.Gather.Turns
import MetricFanout.Proofs.Gather.InFlight
import MetricFanout.Proofs.Merge.Staged
import MetricFanout.Proofs.Merge.Batches
import MetricFanout.Proofs.Engine.Frame
import MetricFanout.Proofs.Engine.Lookups
import MetricFanout.Proofs.Engine.Traffic
import MetricFanout.Proofs.Engine.Genuine
import MetricFanout.Proofs.FrontEnd.Accounts
import MetricFanout.Proofs.FrontEnd.Params
import MetricFanout.Proofs.FrontEnd.FirstValues
import MetricFanout.Proofs.FrontEnd.Renders
import MetricFanout.Proofs.FrontEnd.Answers
import MetricFanout.Proofs.Metric.Wire
import MetricFanout.Proofs.Config.Startup
import MetricFanout.Proofs.Cache.Interleaving
import MetricFanout.Proofs.Permits.Fairness
import MetricFanout.Proofs.Cache.Accounting
import MetricFanout.Proofs.Cache.Sweeping
import MetricFanout.Proofs.Telemetry.Bucket
import MetricFanout.Proofs.Backend.Pool
import MetricFanout.Proofs.Backend.Endpoints
import MetricFanout.Proofs.Signal.Delivery
