import SetCover.Main
import SetCover.Proofs.Bits.Refinement
import SetCover.Proofs.CommandLine.Composition
import SetCover.Proofs.Heuristic.Rivals
import SetCover.Proofs.Heuristic.Walk
import SetCover.Proofs.Instance.Agreement
import SetCover.Proofs.Instance.Grammar
import SetCover.Proofs.Solver.Idle
import SetCover.Proofs.Solver.Longer
import SetCover.Proofs.Swap.Tour
import SetCover.Selection.Json
import SetCover.Proofs.Greedy.Order
import SetCover.Proofs.Solver.Reference
import SetCover.Proofs.Greedy.Guarantee
import SetCover.Proofs.Instance.Overrun
import SetCover.Proofs.Selection.Signed
import SetCover.Proofs.Heuristic.Acceptance
import SetCover.Proofs.Swap.LocalOptimum
import SetCover.Proofs.Genetic.Nearest
import SetCover.Proofs.Genetic.Conservation
import SetCover.Proofs.Genetic.Recombination
import SetCover.Proofs.Genetic.Attempts
import SetCover.Proofs.Greedy.Reach
import SetCover.Proofs.Solver.Best
import SetCover.Proofs.Swap.Sweep
import SetCover.Proofs.Swap.Outcomes
import SetCover.Proofs.Swap.Evaluation
import SetCover.Proofs.Genetic.Tournament
import SetCover.Proofs.Genetic.Encoding
import SetCover.Proofs.Instance.Position
import SetCover.Proofs.Instance.Record
import SetCover.Proofs.Heuristic.Course
