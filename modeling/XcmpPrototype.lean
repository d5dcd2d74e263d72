import XcmpPrototype.Scale
import XcmpPrototype.HashTree
import XcmpPrototype.Keccak
import XcmpPrototype.MerkleTrees
import XcmpPrototype.Runs
import XcmpPrototype.Interaction
import XcmpPrototype.Primitives
import XcmpPrototype.Pallet
import XcmpPrototype.SoleProof
import XcmpPrototype.Panics
import XcmpPrototype.Authenticity
import XcmpPrototype.Runtime
import XcmpPrototype.Completeness
import XcmpPrototype.Channels
import XcmpPrototype.SeenRoots
import XcmpPrototype.OutboundQueue
import XcmpPrototype.Commitments
import XcmpPrototype.Relayer
import XcmpPrototype.Linkage
import XcmpPrototype.Delivery
import XcmpPrototype.Submissions
import XcmpPrototype.ChannelProofs
import XcmpPrototype.Provability
import XcmpPrototype.RelayRoots
import XcmpPrototype.Aggregation
import XcmpPrototype.LeafEncodings
import XcmpPrototype.NewestEntry
import XcmpPrototype.HalfRecorded
import XcmpPrototype.Collection
import XcmpPrototype.Acceptance
import XcmpPrototype.Provenance
import XcmpPrototype.SenderChain
import XcmpPrototype.RelayedProofs
import XcmpPrototype.Draining
import XcmpPrototype.Attestation
import XcmpPrototype.EventLog
import XcmpPrototype.Turns
import XcmpPrototype.Loops
import XcmpPrototype.HeldProof
import XcmpPrototype.WholeRelayer
import XcmpPrototype.Progress
