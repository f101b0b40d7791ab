import NeuralPlan.Json.Decode
import NeuralPlan.Main
import NeuralPlan.Proofs.Answers
import NeuralPlan.Proofs.Walks
import NeuralPlan.Proofs.Encoding
import NeuralPlan.Proofs.Budget
import NeuralPlan.Proofs.Frontier.Sound
import NeuralPlan.Proofs.Frontier.Start
import NeuralPlan.Proofs.Frontier.Scan
import NeuralPlan.Proofs.Frontier.Reservations
import NeuralPlan.Proofs.Frontier.Collection
import NeuralPlan.Proofs.Frontier.Outcomes
import NeuralPlan.Proofs.Frontier.Strict
import NeuralPlan.Proofs.Cell.Parts
import NeuralPlan.Proofs.Cell.Solving
import NeuralPlan.Proofs.Cell.Reading
import NeuralPlan.Proofs.Cell.Faults
import NeuralPlan.Proofs.Draft.Checks
import NeuralPlan.Proofs.Draft.Add
import NeuralPlan.Proofs.Draft.Calls
import NeuralPlan.Proofs.Draft.Solving
import NeuralPlan.Proofs.Plan.Rows
import NeuralPlan.Proofs.Plan.Costs
import NeuralPlan.Proofs.Frontier.Stall
import NeuralPlan.Proofs.Frontier.History
import NeuralPlan.Proofs.Plan.Layout
import NeuralPlan.Proofs.Frontier.Rounds
import NeuralPlan.Proofs.Frontier.Relaxed
import NeuralPlan.Proofs.Plan.Structure
import NeuralPlan.Proofs.Plan.Ending
import NeuralPlan.Proofs.Plan.Success
import NeuralPlan.Proofs.Plan.Retry
import NeuralPlan.Proofs.Plan.Commits
import NeuralPlan.Proofs.Plan.Correctness
import NeuralPlan.Proofs.Plan.Memory
import NeuralPlan.Proofs.Plan.Running
import NeuralPlan.Proofs.Plan.Atomicity
import NeuralPlan.Proofs.Plan.Columns
import NeuralPlan.Proofs.Plan.Grid
import NeuralPlan.Proofs.Draft.Growth
import NeuralPlan.Proofs.Plan.Packing
import NeuralPlan.Proofs.Draft.Tables
import NeuralPlan.Proofs.Draft.Acceptance
import NeuralPlan.Proofs.Frontier.Renumbering
import NeuralPlan.Proofs.Dense.Generation
import NeuralPlan.Proofs.Dense.Layers
import NeuralPlan.Proofs.Dense.Graph
import NeuralPlan.Proofs.Dense.Rows
import NeuralPlan.Proofs.Frontier.Refusals
import NeuralPlan.Proofs.Dense.Picks
import NeuralPlan.Proofs.Frontier.Losses
import NeuralPlan.Proofs.Frontier.Counts
import NeuralPlan.Proofs.Initializer.Draws
