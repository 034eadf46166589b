import DeviceTypes.Countdown
import DeviceTypes.Lowering.Combinators
import DeviceTypes.Workspace
import DeviceTypes.Proofs.Layout.Anew
import DeviceTypes.Proofs.Layout.Coherence
import DeviceTypes.Proofs.Universe.Sound
import DeviceTypes.Proofs.Universe.Lasting
import DeviceTypes.Proofs.Workspace.History
import DeviceTypes.Proofs.Workspace.Coherence
import DeviceTypes.Proofs.Layout.Placed
import DeviceTypes.Proofs.Workspace.MemoryMap
import DeviceTypes.Proofs.Tree.Basic
import DeviceTypes.Proofs.Tree.Accepted
import DeviceTypes.Proofs.Tree.Plant
import DeviceTypes.Proofs.Universe.Mint
import DeviceTypes.Proofs.Lowering.Library
import DeviceTypes.Proofs.Lowering.Steadfast
import DeviceTypes.Proofs.Lowering.Expansion
import DeviceTypes.Proofs.Lowering.Play
import DeviceTypes.Proofs.Lowering.Simulation
import DeviceTypes.Proofs.Lowering.Calls
import DeviceTypes.Proofs.Lowering.Meaning
import DeviceTypes.Proofs.Lowering.Transparency
import DeviceTypes.Proofs.Lowering.Blame
import DeviceTypes.Proofs.Tree.Held
import DeviceTypes.Proofs.Tree.Renaming
import DeviceTypes.Proofs.Lowering.Workshop
import DeviceTypes.Proofs.Lowering.Reordering
import DeviceTypes.Proofs.Lowering.Moments
import DeviceTypes.Proofs.Source.Catalog
import DeviceTypes.Proofs.Lowering.Asking
import DeviceTypes.Proofs.Lowering.Course
import DeviceTypes.Proofs.Lowering.Residue
import DeviceTypes.Proofs.Table.Interner
import DeviceTypes.Proofs.Table.Shard
import DeviceTypes.Proofs.Table.Sharded
import DeviceTypes.Proofs.Table.Faithful
import DeviceTypes.Proofs.Table.WellFormed
import DeviceTypes.Proofs.Table.Spelling
import DeviceTypes.Proofs.Workspace.Minted
import DeviceTypes.Proofs.Workspace.Foreign
import DeviceTypes.Proofs.Lowering.Nesting
import DeviceTypes.Proofs.Lowering.Standalone
import DeviceTypes.Proofs.Tree.Spelling
import DeviceTypes.Proofs.Lowering.Structure
import DeviceTypes.Proofs.Lowering.Plain
import DeviceTypes.Proofs.Source.Declarations
import DeviceTypes.Proofs.Source.Indexed
import DeviceTypes.Proofs.Layout.Levels
import DeviceTypes.Proofs.Table.Descent
import DeviceTypes.Proofs.Workspace.Descent
import DeviceTypes.Proofs.Layout.Exact
import DeviceTypes.Proofs.Layout.Whole
import DeviceTypes.Proofs.Workspace.Exact
import DeviceTypes.Proofs.Layout.Objections
import DeviceTypes.Proofs.Workspace.Refusal
import DeviceTypes.Proofs.Tree.Unambiguous
import DeviceTypes.Proofs.Workspace.Texts
import DeviceTypes.Proofs.Layout.Least
import DeviceTypes.Proofs.Workspace.Tight
import DeviceTypes.Proofs.Layout.Compared
import DeviceTypes.Proofs.Workspace.Compared
import DeviceTypes.Proofs.Lowering.Tour
import DeviceTypes.Proofs.Lowering.Runs
import DeviceTypes.Proofs.Lowering.Transcript
import DeviceTypes.Proofs.Source.Naming
import DeviceTypes.Proofs.Lowering.Registrations
import DeviceTypes.Proofs.Lowering.Halves
import DeviceTypes.Proofs.Layout.Closed
import DeviceTypes.Proofs.Workspace.Closed
import DeviceTypes.Proofs.Workspace.Again
