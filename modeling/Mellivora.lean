import Mellivora.Tools.Proofs.JournalProofs
import Mellivora.Kernel.Proofs.ReferenceProofs
import Mellivora.Kernel.Proofs.PmmInitProofs
import Mellivora.CRuntime.Proofs.HeapRunProofs
import Mellivora.Kernel.Proofs.TreeProofs
import Mellivora.Kernel.Proofs.WaitRunProofs
import Mellivora.Kernel.Proofs.TmpfsProofs
import Mellivora.Kernel.Proofs.ServiceProofs
import Mellivora.Kernel.Proofs.PipeProofs
import Mellivora.Kernel.Proofs.PageCacheProofs
import Mellivora.Kernel.Proofs.WaitPidProofs
import Mellivora.Kernel.Proofs.DeletionProofs
import Mellivora.Kernel.Proofs.TruncateCallProofs
import Mellivora.Kernel.Proofs.SessionAccountProofs
import Mellivora.Kernel.Proofs.WildcardProofs
import Mellivora.CRuntime.Proofs.StreamProofs
import Mellivora.Kernel.Proofs.Utf8Proofs
import Mellivora.Disk.Proofs.ChecksumProofs
import Mellivora.Kernel.Proofs.AclProofs
import Mellivora.Kernel.Proofs.PathProofs
import Mellivora.Kernel.Proofs.VmRangeProofs
import Mellivora.Kernel.Proofs.VmGapProofs
import Mellivora.Kernel.Proofs.EnumerationProofs
import Mellivora.Kernel.Proofs.AccessProofs
import Mellivora.Kernel.Proofs.LookupProofs
import Mellivora.Kernel.Proofs.TcpProofs
import Mellivora.Kernel.Proofs.TaskProofs
import Mellivora.Kernel.Proofs.ErrorProofs
