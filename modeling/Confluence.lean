import Confluence.History.Checkout
import Confluence.Main
import Confluence.Node.Poll
import Confluence.Repository.Scripted
import Confluence.Proofs.Document.Transform
import Confluence.Proofs.Repository.Uncontended
import Confluence.Proofs.Concurrency.Coverage
import Confluence.Proofs.Simulation.Team
import Confluence.Proofs.Document.Convergence
import Confluence.Proofs.Document.Difference
import Confluence.Proofs.Repository.Levels
import Confluence.Proofs.Repository.Snapshots
import Confluence.Proofs.Node.Repeated
import Confluence.Proofs.Repository.Heads
import Confluence.Proofs.Repository.Batches
import Confluence.Proofs.Concurrency.Readers
import Confluence.Proofs.Repository.Walks
import Confluence.Proofs.Repository.Reproduction
import Confluence.Proofs.Document.Symmetry
import Confluence.Proofs.Document.Inverse
import Confluence.Proofs.Repository.Failures
import Confluence.Proofs.History.Links
import Confluence.Proofs.History.Lineage
import Confluence.Proofs.Repository.Windows
import Confluence.Proofs.Simulation.LevelOrder
import Confluence.Proofs.Simulation.Reports
import Confluence.Proofs.Repository.Injections
import Confluence.Proofs.Repository.Watch
import Confluence.Proofs.Node.Clock
import Confluence.Proofs.Repository.Squashing
import Confluence.Proofs.Repository.Naming
import Confluence.Proofs.Document.Json
import Confluence.Proofs.Repository.Endings
import Confluence.Proofs.Simulation.Streams
