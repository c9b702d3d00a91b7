import QueryStats.Main
import QueryStats.Proofs.Double
import QueryStats.Proofs.Rounding
import QueryStats.Proofs.Operations
import QueryStats.Proofs.Finite
import QueryStats.Proofs.Nearest
import QueryStats.Proofs.Decimals
import QueryStats.Proofs.Significant
import QueryStats.Proofs.History
import QueryStats.Proofs.Tally
import QueryStats.Proofs.Buckets
import QueryStats.Proofs.Balance
import QueryStats.Proofs.Differences
import QueryStats.Proofs.Restoring
import QueryStats.Proofs.Windows
import QueryStats.Proofs.Counting
import QueryStats.Proofs.Merging
import QueryStats.Proofs.Agreement
import QueryStats.Proofs.Ranking
import QueryStats.Proofs.Selecting
import QueryStats.Proofs.Arrival
import QueryStats.Proofs.Durations
import QueryStats.Proofs.Turns
import QueryStats.Proofs.Session
import QueryStats.Proofs.Frame
import QueryStats.Proofs.Delivery
import QueryStats.Proofs.Backlog
import QueryStats.Proofs.Bodies
import QueryStats.Proofs.Settings
import QueryStats.Proofs.Assignments
import QueryStats.Proofs.Numerals
import QueryStats.Proofs.Tuning
import QueryStats.Proofs.Elapsed
import QueryStats.Proofs.Overrides
import QueryStats.Proofs.Quantities
import QueryStats.Proofs.Ranges
import QueryStats.Proofs.Arguments
import QueryStats.Proofs.Rendering
import QueryStats.Proofs.Layouts
import QueryStats.Proofs.Figures
import QueryStats.Proofs.Loading
import QueryStats.Proofs.Padding
import QueryStats.Proofs.Integers
import QueryStats.Proofs.Requests
import QueryStats.Proofs.Copies
