import XcmpPrototype.Pallet

/-!
# The runtime

Two instances of the message stuffer and two mountain ranges of messages, one pair for each channel.  The digest of a
block carries the root of a binary tree over the two channel roots (`collectRoots`), and the runtime interface hands out
the pieces of a proof that a relayer collects: channel roots, inclusion proofs of a channel root, message proofs.

Generators of proofs live in other crates; they join the verifiers in `Crates`.
-/

open Scale

namespace XcmpPrototype

/-- The mountain range of a `pallet_mmr` instance: one leaf for each block up to the current one. -/
structure MmrState (α : Type) where
  leaves : List α
  blockNumber : UInt32

/-- The leaf that was added in block `n`. -/
def MmrState.leafAt {α : Type} (m : MmrState α) (n : UInt32) : Option α :=
  if n.toNat ≤ m.blockNumber.toNat ∧ m.blockNumber.toNat < n.toNat + m.leaves.length then
    m.leaves[m.leaves.length + n.toNat - (m.blockNumber.toNat + 1)]?
  else none

/-- The errors of the mountain range interface that the runtime returns itself, and all others. -/
inductive MmrError where
  | getRoot
  | generateProof
  | verify
  | other
  deriving DecidableEq

/-- `binary_merkle_tree::MerkleProof`. -/
structure MerkleProof (α : Type) where
  root : H256
  proof : List H256
  numberOfLeaves : UInt32
  leafIndex : UInt32
  leaf : α

/-- The functions of other crates that the runtime calls, for leaves of any type with a byte form. -/
structure Crates extends Externals where
  /-- `binary_merkle_tree::merkle_root`. -/
  merkleRoot : List Bytes → H256
  /-- `binary_merkle_tree::merkle_proof`, which panics when there is no leaf at the index. -/
  merkleProof : {α : Type} → (α → Bytes) → (leaves : List α) → (i : UInt32) → i.toNat < leaves.length → MerkleProof α
  /-- `pallet_mmr::Pallet::mmr_root`, which is also `mmr_root_hash`. -/
  mmrRoot : {α : Type} → (α → Bytes) → MmrState α → H256
  /-- `pallet_mmr::Pallet::generate_proof`. -/
  generateProof : {α : Type} → (α → Bytes) → MmrState α → List UInt32 → Option UInt32 →
    Except MmrError (List α × MmrProof)

/-- An instance of the message stuffer. -/
structure Instance where
  config : Config
  storage : Storage

structure RuntimeState where
  mmrParaA : MmrState MmrLeaf
  mmrParaB : MmrState MmrLeaf
  msgStufferParaA : Instance
  msgStufferParaB : Instance

/-- `ParaAChannel`. -/
def configParaA : Config := ⟨1, 0, 64000⟩

/-- `ParaBChannel`. -/
def configParaB : Config := ⟨2, 0, 64000⟩

def RuntimeState.genesis : RuntimeState := ⟨⟨[], 0⟩, ⟨[], 0⟩, ⟨configParaA, .genesis⟩, ⟨configParaB, .genesis⟩⟩

variable (C : Crates)

def mmrParaARoot (st : RuntimeState) : H256 := C.mmrRoot MmrLeaf.codec.encode st.mmrParaA

def mmrParaBRoot (st : RuntimeState) : H256 := C.mmrRoot MmrLeaf.codec.encode st.mmrParaB

/-- `XcmpChannelRootCollector::collect_roots`: the tree is over encoded roots. -/
def collectRoots (st : RuntimeState) : H256 :=
  C.merkleRoot ([mmrParaARoot C st, mmrParaBRoot C st].map H256.codec.encode)

/-- `ChannelMerkleProofGen::gen_merkle_proof`: the tree is over raw roots and the proof is always for the first one. -/
def genMerkleProof (st : RuntimeState) (_channelId : UInt64) : Option ChannelMerkleProof :=
  let merkleProof := C.merkleProof H256.bytes [mmrParaARoot C st, mmrParaBRoot C st] 0 (by simp)
  some ⟨merkleProof.root, merkleProof.proof, merkleProof.numberOfLeaves.toUInt64, merkleProof.leafIndex.toUInt64,
    merkleProof.leaf⟩

/-- `ChannelMerkleApi::get_xcmp_channels_proof`. -/
def getXcmpChannelsProof (st : RuntimeState) (channelId : UInt64) : Option ChannelMerkleProof :=
  genMerkleProof C st channelId

/-- `MmrApi::mmr_root`. -/
def mmrRootApi (st : RuntimeState) (mmrId : UInt64) : Except MmrError H256 :=
  match mmrId with
  | 0 => .ok (mmrParaARoot C st)
  | 1 => .ok (mmrParaBRoot C st)
  | _ => .error .getRoot

/-- `MmrApi::mmr_leaf_count`: it has no id, and counts the leaves of the first range. -/
def mmrLeafCountApi (st : RuntimeState) : Except MmrError ℕ := .ok st.mmrParaA.leaves.length

/-- `MmrApi::generate_proof`: the leaves are returned in encoded form. -/
def generateProofApi (st : RuntimeState) (blockNumbers : List UInt32) (bestKnownBlockNumber : Option UInt32)
    (mmrId : UInt64) : Except MmrError (List EncodableOpaqueLeaf × MmrProof) :=
  match mmrId with
  | 0 => (C.generateProof MmrLeaf.codec.encode st.mmrParaA blockNumbers bestKnownBlockNumber).map
      fun r => (r.1.map MmrLeaf.codec.encode, r.2)
  | 1 => (C.generateProof MmrLeaf.codec.encode st.mmrParaB blockNumbers bestKnownBlockNumber).map
      fun r => (r.1.map MmrLeaf.codec.encode, r.2)
  | _ => .error .generateProof

end XcmpPrototype
