import FourLevelPaging.DirectMap
import FourLevelPaging.KernelSpace.Program
import FourLevelPaging.Proofs.Manager.History
import FourLevelPaging.Proofs.Manager.Refusal
import FourLevelPaging.Proofs.Manager.Rights
import FourLevelPaging.Proofs.Spaces.Isolation
import FourLevelPaging.RootRegister
import FourLevelPaging.Proofs.FramePool.Outstanding
import FourLevelPaging.Proofs.KernelSpace.Body
import FourLevelPaging.Proofs.KernelSpace.Reentry
import FourLevelPaging.Proofs.KernelSpace.Installation
import FourLevelPaging.Proofs.Manager.Demand
import FourLevelPaging.Proofs.Manager.Budget
import FourLevelPaging.Proofs.SpinLock.Contention
import FourLevelPaging.Proofs.SpinLock.Guards
import FourLevelPaging.Proofs.Checked.Manager
import FourLevelPaging.Proofs.Manager.Independence
import FourLevelPaging.Proofs.Manager.Rebuild
import FourLevelPaging.Proofs.Manager.Undo
import FourLevelPaging.Proofs.FramePool.Verdict
import FourLevelPaging.Proofs.FramePool.Order
import FourLevelPaging.Proofs.FramePool.Carving
import FourLevelPaging.Proofs.AddressSpace.Child
import FourLevelPaging.Declaration
import FourLevelPaging.Proofs.Entry.RoundTrip
import FourLevelPaging.Proofs.Entry.Fields
import FourLevelPaging.Coordinates
import FourLevelPaging.Proofs.Tree.Coordinates
import FourLevelPaging.Proofs.SpinLock.History
