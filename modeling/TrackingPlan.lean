import TrackingPlan.Disk.FileTree
import TrackingPlan.Main
import TrackingPlan.Proofs.Plan.Failure
import TrackingPlan.Proofs.Plan.Links
import TrackingPlan.Proofs.Disk.Sight
import TrackingPlan.Proofs.Disk.Written
import TrackingPlan.Proofs.Path.Names
import TrackingPlan.Proofs.Command.Preparation
import TrackingPlan.Proofs.Command.Writing
import TrackingPlan.Proofs.Layout.Groups
import TrackingPlan.Proofs.Command.Regenerating
import TrackingPlan.Proofs.Command.Arguments
import TrackingPlan.Proofs.Path.Location
import TrackingPlan.Proofs.Layout.Imports
import TrackingPlan.Proofs.Path.Extension
import TrackingPlan.Proofs.Command.Imports
import TrackingPlan.Proofs.Plan.Sources
import TrackingPlan.Proofs.Layout.Generation
import TrackingPlan.Proofs.Command.Failing
import TrackingPlan.Proofs.TypeScript.TypeText
import TrackingPlan.Proofs.Layout.Modules
import TrackingPlan.Proofs.Layout.Locality
import TrackingPlan.Proofs.Layout.Closed
import TrackingPlan.Proofs.Layout.Narrowing
import TrackingPlan.Proofs.Layout.Reporting
import TrackingPlan.Proofs.Layout.Copies
import TrackingPlan.Proofs.Plan.Formats
import TrackingPlan.Proofs.Command.Placement
import TrackingPlan.Proofs.Plan.Normal
import TrackingPlan.Proofs.Plan.Erased
import TrackingPlan.Proofs.Layout.Listing
import TrackingPlan.Proofs.Command.Implementation
import TrackingPlan.Proofs.TypeScript.Keys
import TrackingPlan.Proofs.Text.Lines
import TrackingPlan.Proofs.TypeScript.DocComment
import TrackingPlan.Proofs.Shape.KnownValues
import TrackingPlan.Proofs.Command.Checking
import TrackingPlan.Proofs.Shape.SingleValues
import TrackingPlan.Proofs.Layout.Names
import TrackingPlan.Proofs.LineDiff.Shown
import TrackingPlan.Proofs.Layout.Documentation
