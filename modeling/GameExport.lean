import GameExport.Main
import GameExport.Path.Raw
import GameExport.Proofs.Action
import GameExport.Proofs.Path.Steps
import GameExport.Proofs.Path.Place
import GameExport.Proofs.Disk.Walk
import GameExport.Proofs.Path.Descent
import GameExport.Proofs.Path.Fronts
import GameExport.Proofs.Disk.Change
import GameExport.Proofs.Disk.Operations
import GameExport.Proofs.Disk.Growth
import GameExport.Proofs.Disk.Removal
import GameExport.Proofs.Archive.EntryName
import GameExport.Proofs.Staging.Containment
import GameExport.Proofs.Staging.Unpack
import GameExport.Proofs.Workspace
import GameExport.Proofs.FileName
import GameExport.Proofs.Script.Paths
import GameExport.Proofs.Descriptor
import GameExport.Proofs.Job
import GameExport.Proofs.Export.Stages
import GameExport.Proofs.Export.Containment
import GameExport.Proofs.Materialize.Step
import GameExport.Proofs.Materialize.Repeat
import GameExport.Proofs.Materialize.Newcomers
import GameExport.Proofs.Materialize.Effect
import GameExport.Proofs.Materialize.Pass
import GameExport.Proofs.Materialize.Order
import GameExport.Proofs.AssemblyDefinition
import GameExport.Proofs.Decompile
import GameExport.Proofs.Decompile.Calls
import GameExport.Proofs.Export.Repeat
import GameExport.Proofs.Export.Definitions
import GameExport.Proofs.Materialize.Additions
import GameExport.Proofs.Staging.Inputs
import GameExport.Proofs.Json.Reader
import GameExport.Proofs.Json.Writer
import GameExport.Proofs.Json.Record
import GameExport.Proofs.Version
import GameExport.Proofs.Json.RoundTrip
import GameExport.Proofs.Records.RoundTrip
import GameExport.Proofs.Json.Grammar
import GameExport.Proofs.Json.Members
import GameExport.Proofs.Records.Members
import GameExport.Proofs.Export.Families
import GameExport.Proofs.Script.Targets
import GameExport.Proofs.Export.Totals
import GameExport.Proofs.Disk.Visits
import GameExport.Proofs.Disk.Making
import GameExport.Proofs.CommandLine.Export
import GameExport.Proofs.Parallel
import GameExport.Proofs.Path.Renaming
import GameExport.Proofs.Disk.Renaming
import GameExport.Proofs.Staging.Renaming
import GameExport.Proofs.Export.Renaming
import GameExport.Proofs.CommandLine.RandomNames
import GameExport.Proofs.Text.ByteOrder
import GameExport.Proofs.Descriptor.History
import GameExport.Proofs.Definitions
import GameExport.Proofs.Text.Trim
import GameExport.Proofs.Version.Grammar
import GameExport.Proofs.Version.RoundTrip
import GameExport.Proofs.Version.Order
import GameExport.Proofs.Json.Positions
import GameExport.Proofs.Records.Positions
import GameExport.Proofs.Workspace.Preparing
import GameExport.Proofs.CommandLine.Setup
import GameExport.Proofs.Path.Slashes
import GameExport.Proofs.CommandLine.Listing
import GameExport.Proofs.Shell.Pattern
import GameExport.Proofs.Shell.Channel
import GameExport.Proofs.Shell.Steps
import GameExport.Proofs.Shell.Run
import GameExport.Proofs.Shell.Tool
import GameExport.Proofs.Shell.Launch
import GameExport.Proofs.CommandLine.Place
