import Workflow.Listing
import Workflow.Main
import Workflow.Proofs.CopyJob.FanOut
import Workflow.Proofs.CopyJob.Polling
import Workflow.Proofs.CopyJob.Single
import Workflow.Proofs.Listing.Partition
import Workflow.Proofs.Listing.Requests
import Workflow.Proofs.Machine.Accepted
import Workflow.Proofs.Machine.Worklist
import Workflow.Proofs.Run.Elapsed
import Workflow.Proofs.Run.Faults
import Workflow.Proofs.Run.Frame
import Workflow.Proofs.Run.Independence
import Workflow.Proofs.Run.Resolution
import Workflow.Proofs.Run.Truth
import Workflow.Proofs.Template.Remote
import Workflow.Proofs.Template.Reordered
import Workflow.Proofs.Text.Commuting
import Workflow.Run.Record
