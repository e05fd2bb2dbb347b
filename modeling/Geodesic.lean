import Geodesic.Betweenness
import Geodesic.Cause
import Geodesic.Command
import Geodesic.Decimal.Fixed
import Geodesic.Decimal.Numeral
import Geodesic.Decimal.Rounding
import Geodesic.Decimal.Shortest
import Geodesic.Dependency
import Geodesic.Distance
import Geodesic.Dominance
import Geodesic.EdgeList
import Geodesic.ErrorCode
import Geodesic.Fault
import Geodesic.Files
import Geodesic.Graph
import Geodesic.Heap
import Geodesic.Json.Number
import Geodesic.Json.Value
import Geodesic.Main
import Geodesic.Normalization
import Geodesic.Number
import Geodesic.OutputMode
import Geodesic.Paths
import Geodesic.Paths.BreadthFirst
import Geodesic.Paths.Weighted
import Geodesic.Property.Map
import Geodesic.Property.ValueType
import Geodesic.Property.Values
import Geodesic.Report
import Geodesic.Run
import Geodesic.Schedule
import Geodesic.Settings
import Geodesic.Table
import Geodesic.Tally
import Geodesic.Text.Blank
import Geodesic.Text.Lines
import Geodesic.Text.Pretty
import Geodesic.Toml.Document
import Geodesic.Toml.Quoted
import Geodesic.Toml.Scalar
import Geodesic.Toml.Tree
import Geodesic.Proofs.Before
import Geodesic.Proofs.Distance
import Geodesic.Proofs.Heap
import Geodesic.Proofs.Paths.Restart
import Geodesic.Proofs.Paths.Weighted.Step
import Geodesic.Proofs.Walk
import Geodesic.Proofs.Paths.Counting
import Geodesic.Proofs.Paths.Weighted.Record
import Geodesic.Proofs.Paths.Weighted.Scan
import Geodesic.Proofs.Paths.Recorded
import Geodesic.Proofs.Paths.Weighted.Drain
import Geodesic.Proofs.Paths.Weighted.Final
import Geodesic.Proofs.Graph
import Geodesic.Proofs.Paths.Weighted.Optimal
import Geodesic.Proofs.Paths.Weighted.Shortest
import Geodesic.Proofs.Paths.BreadthFirst.Step
import Geodesic.Proofs.Paths.BreadthFirst.Sweep
import Geodesic.Proofs.Paths.BreadthFirst.Final
import Geodesic.Proofs.Paths.Relabel
import Geodesic.Proofs.Paths.Reuse
import Geodesic.Proofs.Paths.Trail
import Geodesic.Proofs.Dependency
import Geodesic.Proofs.Credit
import Geodesic.Proofs.Machine.Format
import Geodesic.Proofs.Machine.Magnitude
import Geodesic.Proofs.Machine.Lengths
import Geodesic.Proofs.Length
import Geodesic.Proofs.Score
import Geodesic.Proofs.Renumbering
import Geodesic.Proofs.Paths.Exact
import Geodesic.Proofs.Paths.Entering
import Geodesic.Proofs.Schedule
import Geodesic.Proofs.Contribution
import Geodesic.Proofs.Paths.BreadthFirst.Shortest
import Geodesic.Proofs.Betweenness
import Geodesic.Proofs.Numbering
import Geodesic.Proofs.Machine.Double
import Geodesic.Proofs.Machine.Error
import Geodesic.Proofs.Machine.Counts
import Geodesic.Proofs.Machine.Shares
import Geodesic.Proofs.Machine.Mass
import Geodesic.Proofs.Machine.Sums
import Geodesic.Proofs.Machine.Overflow
import Geodesic.Proofs.Paths.Renamed
import Geodesic.Proofs.Paths.Weighted.Ties
import Geodesic.Proofs.Paths.Weighted.Exchange
import Geodesic.Proofs.Paths.Flow
import Geodesic.Proofs.Conservation
import Geodesic.Proofs.Dominance
import Geodesic.Proofs.Normalization
import Geodesic.Proofs.Uniform
import Geodesic.Proofs.Bidirected
import Geodesic.Proofs.Undirected
import Geodesic.Proofs.Rearranged
import Geodesic.Proofs.Unused
import Geodesic.Proofs.Reversal
import Geodesic.Proofs.Selection
import Geodesic.Proofs.Reversed
import Geodesic.Proofs.Paths.Placed
import Geodesic.Proofs.Component
import Geodesic.Proofs.Beside
import Geodesic.Proofs.Star
import Geodesic.Scoring
import Geodesic.Proofs.FirstFault
import Geodesic.Proofs.Scoring
import Geodesic.Proofs.Numeral
import Geodesic.Proofs.EdgeList
import Geodesic.Proofs.Respelling
import Geodesic.Proofs.Report
import Geodesic.Proofs.Stages
import Geodesic.Proofs.Adding
import Geodesic.Proofs.Layout
import Geodesic.Proofs.ReadBack
import Geodesic.Proofs.CentralPoint
import Geodesic.Proofs.Building
import Geodesic.Proofs.Paths.Weighted.Textbook
import Geodesic.Proofs.Bare.Tables
import Geodesic.Proofs.Bare.BreadthFirst
import Geodesic.Proofs.Bare.Weighted
import Geodesic.Proofs.Bare.Dependency
import Geodesic.Proofs.Bare.Betweenness
import Geodesic.Proofs.Paths.Weighted.Loop
import Geodesic.Proofs.Agreement
import Geodesic.Proofs.Columns
import Geodesic.Proofs.Machine.Conversion
import Geodesic.Proofs.Weights
