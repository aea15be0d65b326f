import WorkflowKeeper.Action
import WorkflowKeeper.Cache
import WorkflowKeeper.Check.Basic
import WorkflowKeeper.Check.Format
import WorkflowKeeper.Check.Injection
import WorkflowKeeper.Check.Permissions
import WorkflowKeeper.Check.Repair
import WorkflowKeeper.Check.Secrets
import WorkflowKeeper.Check.Style
import WorkflowKeeper.Check.Versions
import WorkflowKeeper.Cli.Args
import WorkflowKeeper.Cli.Run
import WorkflowKeeper.Cli.Screen
import WorkflowKeeper.Client
import WorkflowKeeper.Config
import WorkflowKeeper.Disk
import WorkflowKeeper.Double
import WorkflowKeeper.Duration
import WorkflowKeeper.Error
import WorkflowKeeper.Issue
import WorkflowKeeper.Json
import WorkflowKeeper.Lint
import WorkflowKeeper.LookupError
import WorkflowKeeper.Main
import WorkflowKeeper.Outline.Event
import WorkflowKeeper.Outline.Fetch
import WorkflowKeeper.Outline.Node
import WorkflowKeeper.Outline.Scalar
import WorkflowKeeper.Outline.Scan
import WorkflowKeeper.Outline.Token
import WorkflowKeeper.PathName
import WorkflowKeeper.Proofs.Caching
import WorkflowKeeper.Proofs.FixReport
import WorkflowKeeper.Proofs.Formatting
import WorkflowKeeper.Proofs.Layout.Beside
import WorkflowKeeper.Proofs.Layout.Cursor
import WorkflowKeeper.Proofs.Layout.Directive
import WorkflowKeeper.Proofs.Layout.Folded
import WorkflowKeeper.Proofs.Layout.Kept
import WorkflowKeeper.Proofs.Layout.Laid
import WorkflowKeeper.Proofs.Layout.Passing
import WorkflowKeeper.Proofs.Layout.Pause
import WorkflowKeeper.Proofs.Layout.Plain
import WorkflowKeeper.Proofs.Layout.Rows
import WorkflowKeeper.Proofs.Layout.Run
import WorkflowKeeper.Proofs.Layout.Scalar
import WorkflowKeeper.Proofs.Layout.Steps
import WorkflowKeeper.Proofs.Layout.Texts
import WorkflowKeeper.Proofs.Layout.Token
import WorkflowKeeper.Proofs.Layout.Twin
import WorkflowKeeper.Proofs.Runs
import WorkflowKeeper.Resolver
import WorkflowKeeper.Server
import WorkflowKeeper.Text.Basic
import WorkflowKeeper.Text.Digit
import WorkflowKeeper.Text.Line
import WorkflowKeeper.Text.Name
import WorkflowKeeper.Text.Pattern
import WorkflowKeeper.Text.Uppercase
import WorkflowKeeper.Upgrade
import WorkflowKeeper.Url
import WorkflowKeeper.Version
import WorkflowKeeper.Workflow.Basic
import WorkflowKeeper.Workflow.Discover
import WorkflowKeeper.Workflow.Edit
import WorkflowKeeper.Yaml.Cursor
import WorkflowKeeper.Yaml.Decode
import WorkflowKeeper.Yaml.Emit
import WorkflowKeeper.Yaml.Scalar
import WorkflowKeeper.Yaml.Scan
import WorkflowKeeper.Yaml.Token
import WorkflowKeeper.Yaml.Tree
import WorkflowKeeper.Yaml.Uri
import WorkflowKeeper.Yaml.Value
import WorkflowKeeper.Proofs.DryRun
import WorkflowKeeper.Proofs.LatestTag
import WorkflowKeeper.Proofs.Calls
import WorkflowKeeper.Proofs.Constraints
import WorkflowKeeper.Proofs.Stopping.Lookup
import WorkflowKeeper.Proofs.Stopping.Run
import WorkflowKeeper.Proofs.Edits
import WorkflowKeeper.Proofs.Views
import WorkflowKeeper.Proofs.Saving
import WorkflowKeeper.Proofs.FixPass
import WorkflowKeeper.Proofs.Plans
import WorkflowKeeper.Proofs.Lines
import WorkflowKeeper.Proofs.SettledLayout
import WorkflowKeeper.Proofs.CacheHistory
import WorkflowKeeper.Proofs.CommandLine
import WorkflowKeeper.Proofs.Presentation
import WorkflowKeeper.Proofs.Decimal
import WorkflowKeeper.Proofs.DurationText
import WorkflowKeeper.Proofs.WrittenSettings
import WorkflowKeeper.Proofs.SavedConfig
import WorkflowKeeper.Proofs.VersionTexts
import WorkflowKeeper.Proofs.ReferenceEdits
import WorkflowKeeper.Proofs.CleanLayout
import WorkflowKeeper.Proofs.RepairedLines
import WorkflowKeeper.Proofs.Nesting
import WorkflowKeeper.Proofs.WrittenRefs
import WorkflowKeeper.Proofs.Pinning
import WorkflowKeeper.Proofs.ReferenceUpdate
import WorkflowKeeper.Proofs.BlockScripts
import WorkflowKeeper.Proofs.NameOrder
import WorkflowKeeper.Proofs.OutlineEvents
import WorkflowKeeper.Proofs.PageLinks
import WorkflowKeeper.Proofs.Retries
import WorkflowKeeper.Proofs.ReferencePlaces
import WorkflowKeeper.Proofs.SuffixedTags
import WorkflowKeeper.Proofs.CommentSpacing
import WorkflowKeeper.Proofs.Pinning.Convergence
