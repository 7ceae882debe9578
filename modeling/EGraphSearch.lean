import EGraphSearch.EGraph.Bipartite
import EGraphSearch.EGraph.Reachable
import EGraphSearch.Json.Reader
import EGraphSearch.Json.Writer
import EGraphSearch.Main
import EGraphSearch.Proofs.BestOfN
import EGraphSearch.Proofs.Completion.FromStart
import EGraphSearch.Proofs.Correspondence
import EGraphSearch.Proofs.DeadEnds
import EGraphSearch.Proofs.EGraph.Generation
import EGraphSearch.Proofs.EGraph.Reachability
import EGraphSearch.Proofs.EGraph.Sweep
import EGraphSearch.Proofs.EffectSize
import EGraphSearch.Proofs.Extractability
import EGraphSearch.Proofs.Optimum
import EGraphSearch.Proofs.Oracle.Evaluation
import EGraphSearch.Proofs.Recommendation
import EGraphSearch.Proofs.Rollout.Support
import EGraphSearch.Proofs.Rounds
import EGraphSearch.Proofs.Scale
import EGraphSearch.Proofs.Search.Lockstep
import EGraphSearch.Proofs.Search.LoneWorker
import EGraphSearch.Proofs.Search.Shifts
import EGraphSearch.Proofs.Selection
import EGraphSearch.Proofs.Term.Unfolding
import EGraphSearch.Proofs.Term.Verdicts
import EGraphSearch.Proofs.Tracker.Exclusion
import EGraphSearch.Proofs.Tracker.Frontier
import EGraphSearch.Proofs.Trials
import EGraphSearch.Proofs.Valuation
import EGraphSearch.Proofs.Visits
import EGraphSearch.Random.Source
