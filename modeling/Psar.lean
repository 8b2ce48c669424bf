import Psar.Library.Proofs.NetworkProofs
import Psar.Library.Proofs.PointersProofs
import Psar.Library.Proofs.FramingProofs
import Psar.Library.Proofs.QueueProofs
import Psar.Connection.Proofs.FramingProofs
import Psar.Connection.Proofs.CacheProofs
import Psar.Core.Proofs.WriteOnlyProofs
import Psar.Core.Proofs.LocalWriterProofs
import Psar.Core.Proofs.LeaveProofs
import Psar.Core.Proofs.LeaveExclusionProofs
import Psar.Core.Proofs.HandlerCounterProofs
import Psar.NaimiTrehel.Proofs.ExclusionProofs
import Psar.NaimiTrehel.Proofs.LeaveProofs
import Psar.NaimiTrehel.Proofs.JoinProofs
import Psar.NaimiTrehel.Proofs.QueueProofs
import Psar.Membership.Proofs.JoinProofs
import Psar.Membership.Proofs.LeaveProofs
import Psar.DataTransfer.Proofs.OwnershipProofs
import Psar.DataTransfer.Proofs.CoherenceProofs
import Psar.DataTransfer.Proofs.ReplyProofs
import Psar.DataTransfer.Proofs.HandoverProofs
import Psar.Sigsegv.Proofs.ProtectionProofs
import Psar.Core.Proofs.RequestQueueProofs
import Psar.Core.Proofs.SendStateProofs
import Psar.Core.Proofs.UnlockChainProofs
import Psar.Dsm.Proofs.SizeProofs
import Psar.Dsm.Proofs.RegionLockProofs
import Psar.Core.Proofs.ReadOnlyProofs
import Psar.Core.Proofs.ThreadsProofs
import Psar.Core.Proofs.ForwardingProofs
import Psar.Sorting.Proofs.MergeSegmentsProofs
import Psar.Connection.Proofs.ServerProofs
import Psar.Membership.Proofs.NodeCountProofs
import Psar.Core.Proofs.DelegateBarrierProofs
import Psar.NaimiTrehel.Proofs.NewRootProofs
import Psar.DataTransfer.Proofs.PageMessageProofs
import Psar.Membership.Proofs.InfoDSMProofs
import Psar.DataTransfer.Proofs.LeavePagesProofs
import Psar.Sigsegv.Proofs.RefinementProofs
import Psar.Dsm.Proofs.SystemRunProofs
import Psar.DataTransfer.Proofs.RequestsProofs
import Psar.Core.Proofs.RequestRingProofs
import Psar.Core.Proofs.JoinProofs
import Psar.Dsm.Proofs.RegionsProofs
import Psar.Membership.Proofs.CriticalSectionProofs
import Psar.Sorting.Proofs.SharedArrayProofs
