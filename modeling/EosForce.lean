import EosForce.AbiResolveProofs
import EosForce.AbiRoundTripProofs
import EosForce.ActorListProofs
import EosForce.AuthCheckProofs
import EosForce.BilledRowsProofs
import EosForce.BlockIndexProofs
import EosForce.BlockSigneeProofs
import EosForce.CommitBlockProofs
import EosForce.EmergencyProofs
import EosForce.FeatureManagerProofs
import EosForce.FeeExtensionProofs
import EosForce.ForkCallProofs
import EosForce.ForkFileProofs
import EosForce.ForkHeadProofs
import EosForce.HardFailProofs
import EosForce.HeaderCountProofs
import EosForce.IncrementalMerkleProofs
import EosForce.IntrinsicWhitelistProofs
import EosForce.LimitUpdatesProofs
import EosForce.NameTextProofs
import EosForce.PermissionSnapshotProofs
import EosForce.ProducerPluginProofs
import EosForce.ScheduleRunProofs
import EosForce.SnapshotStreamProofs
import EosForce.StateHistoryProofs
import EosForce.UsageBoundProofs
import EosForce.VoteAgeProofs
