import EventChart.Text.Blank
import EventChart.Text.Quoted
import EventChart.Text.Numeral
import EventChart.Time.Basic
import EventChart.Time.Text
import EventChart.Time.Approx
import EventChart.Time.Round
import EventChart.Number.Shortest
import EventChart.Number.FloatText
import EventChart.Number.Fixed
import EventChart.Text.Letter
import EventChart.Match.Glob
import EventChart.Match.Token
import EventChart.Match.Expr
import EventChart.Match.Grammar
import EventChart.Entry.Kind
import EventChart.Entry.Basic
import EventChart.Entry.Line
import EventChart.Log.Change
import EventChart.Fault
import EventChart.Log.Store
import EventChart.Log.Reader
import EventChart.Log.Dependency
import EventChart.Log.Message
import EventChart.Log.Event
import EventChart.Log.Module
import EventChart.Log.Index
import EventChart.Log.Basic
import EventChart.Graph.Collect
import EventChart.Graph.Chains
import EventChart.Filter.Params
import EventChart.Filter.View
import EventChart.Filter.LogView
import EventChart.Chart.Mode
import EventChart.Chart.Mapper
import EventChart.Chart.Axis
import EventChart.Report.Doc
import EventChart.Time.Duration
import EventChart.Report.Encode
import EventChart.Session.Request
import EventChart.Session.Log
import EventChart.Session.Query
import EventChart.Session.Live
import EventChart.Session.Answer
import EventChart.Toml.Document
import EventChart.Toml.Seen
import EventChart.Toml.Number
import EventChart.Filter.Fields
import EventChart.Filter.Settings
import EventChart.Config.Basic
import EventChart.Live.Owner
import EventChart.Live.Watcher
import EventChart.Text.Csv
import EventChart.Cli.Literal
import EventChart.Cli.Flag
import EventChart.Cli.Command
import EventChart.Cli.Invocation
import EventChart.Yaml.Document
import EventChart.Config.Sources
import EventChart.Cli.Listing
import EventChart.Cli.Run
import EventChart.Cli.Program
import EventChart.Session.Cli
import EventChart.Main
import EventChart.Proofs.Log.Sync
import EventChart.Proofs.Log.Reported
import EventChart.Proofs.Log.Runs
import EventChart.Proofs.Filter.Navigation
import EventChart.Proofs.Filter.Nearest
import EventChart.Proofs.Filter.Refresh
import EventChart.Proofs.Graph.Search
import EventChart.Proofs.Graph.Collection
import EventChart.Proofs.Log.Crossing
import EventChart.Proofs.Chart.Coordinates
import EventChart.Proofs.Filter.Trace
import EventChart.Proofs.Graph.Chains
import EventChart.Proofs.Chart.Search
import EventChart.Proofs.Chart.Inverse
import EventChart.Proofs.Entry.ReadBack
import EventChart.Proofs.Match.GlobLanguage
import EventChart.Proofs.Number.Rounding
import EventChart.Proofs.Log.Queries
import EventChart.Proofs.Number.Exponents
import EventChart.Proofs.Chart.Interpolation
import EventChart.Proofs.Log.Detection
import EventChart.Proofs.Log.Delivery
import EventChart.Proofs.Log.Messages
import EventChart.Proofs.Log.Uncached
import EventChart.Proofs.Log.Entries
import EventChart.Proofs.Time.Significant
import EventChart.Proofs.Time.Shortest
import EventChart.Proofs.Log.ModuleTree
import EventChart.Proofs.Time.Alignment
import EventChart.Proofs.Match.Reading
import EventChart.Proofs.Match.Steps
import EventChart.Proofs.Match.Terms
import EventChart.Proofs.Match.Composition
import EventChart.Proofs.Chart.Ticks
import EventChart.Proofs.Number.Nearest
import EventChart.Proofs.Number.Arithmetic
import EventChart.Proofs.Number.ShortestOrder
import EventChart.Proofs.Chart.Monotone
