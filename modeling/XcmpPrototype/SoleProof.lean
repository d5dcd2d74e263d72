import XcmpPrototype.Pallet

/-!
# The smallest proof

One parachain with one channel: the trees over heads and channel roots have a single leaf, so that their roots are the
hashes of these leaves and the proofs of the two stages are empty.  The BEEFY range has two leaves, for the only leaf of
a range has no proof.  Whatever the channel root and the message leaves are, the resulting proof passes the first three
stages (`SoleProof.accepted`).
-/

open Scale

namespace XcmpPrototype

/-- The verifiers of the other crates.  `verifyLeavesProof` follows `pallet_mmr::verify_leaves_proof` for leaf counts
from `1` to `2 ^ 63 - 1` and leaf indices below `2 ^ 63`. -/
def Externals.documented (extract : Digest → Option H256) : Externals where
  verifyLeavesProof := Mmr.verifyLeavesProof keccak
  verifyProof := BinaryMerkle.verifyProof keccak
  extractXcmpChannelMerkleRoot := extract

@[simp] theorem Externals.documented_verifyLeavesProof (extract : Digest → Option H256) :
    (documented extract).verifyLeavesProof = Mmr.verifyLeavesProof keccak := rfl

/-- The engine under which the channel root is put into a digest. -/
def xcmrEngine : {b : Bytes // b.length = 4} := ⟨[0x58, 0x43, 0x4d, 0x52], rfl⟩

/-- The root in the first consensus item of the engine. -/
def xcmrRoot (d : Digest) : Option H256 :=
  d.1.findSome? fun
    | .consensus e v => if e = xcmrEngine then (H256.codec.decode v.1).map Prod.fst else none
    | _ => none

/-- A header that carries a root under the engine. -/
def headerWith (root : H256) : Header where
  parentHash := H256.zero
  number := 1
  stateRoot := H256.zero
  extrinsicsRoot := H256.zero
  digest := ⟨[.consensus xcmrEngine ⟨root.bytes, by rw [H256.length_bytes]; decide⟩], by simp⟩

theorem length_encode_headerWith (root : H256) : (Header.codec.encode (headerWith root)).length = 136 := by
  show (H256.zero.bytes ++ (encodeCompact 1 ++ (H256.zero.bytes ++ (H256.zero.bytes ++ (encodeCompact 1 ++
    encodeList DigestItem.codec (headerWith root).digest.1))))).length = 136
  have h : encodeList DigestItem.codec (headerWith root).digest.1 =
      4 :: (xcmrEngine.1 ++ (encodeCompact root.bytes.length ++ root.bytes)) := by
    rw [← encode_byteVec ⟨root.bytes, by rw [H256.length_bytes]; decide⟩]
    exact List.append_nil _
  rw [h]
  simp only [List.length_append, List.length_cons, H256.length_bytes, xcmrEngine.2]
  rfl

theorem xcmrRoot_headerWith (root : H256) : xcmrRoot (headerWith root).digest = some root := by
  have h := H256.codec.decode_encode root []
  rw [List.append_nil, H256.encode_eq_bytes] at h
  simp [xcmrRoot, headerWith, h]

/-- The head of a parachain whose header carries a root. -/
def headWith (paraId : ParaId) (root : H256) : ParaLeaf :=
  ⟨paraId, ⟨Header.codec.encode (headerWith root), by rw [length_encode_headerWith]; decide⟩⟩

/-- A parachain, the root of its only channel, and the messages proven in it. -/
structure SoleProof where
  paraId : ParaId
  channelRoot : H256
  messages : MmrProof × List EncodableOpaqueLeaf

namespace SoleProof

variable (q : SoleProof)

/-- The root over the channels of the parachain. -/
def channelsRoot : H256 := keccak256 q.channelRoot.bytes

def header : Header := headerWith q.channelsRoot

def head : ParaLeaf := headWith q.paraId q.channelsRoot

def headsRoot : H256 := keccak256 (ParaLeaf.codec.encode q.head)

/-- The BEEFY leaf of the first relay block. -/
def firstLeaf : BeefyMmrLeaf := ⟨0, (0, H256.zero), ⟨0, 0, H256.zero⟩, q.headsRoot⟩

/-- The BEEFY leaf of the second relay block, over the same heads. -/
def leaf : BeefyMmrLeaf := ⟨0, (1, H256.zero), ⟨0, 0, H256.zero⟩, q.headsRoot⟩

def beefyRoot : H256 :=
  Mmr.mmrRoot keccak [BeefyMmrLeaf.codec.encode q.firstLeaf, BeefyMmrLeaf.codec.encode q.leaf]

def proof : XcmpProof where
  stage1 := (⟨[1], 2, [keccak256 (BeefyMmrLeaf.codec.encode q.firstLeaf)]⟩, [BeefyMmrLeaf.codec.encode q.leaf])
  stage2 := ⟨q.headsRoot, [], 1, 0, q.head⟩
  stage3 := ⟨q.channelsRoot, [], 1, 0, q.channelRoot⟩
  stage4 := q.messages

theorem decode_head : Header.codec.decode q.head.headData.1 = some (q.header, []) := by
  have h := Header.codec.decode_encode q.header []
  rwa [List.append_nil] at h

theorem extract_head (env : Externals) (h : env.extractXcmpChannelMerkleRoot = xcmrRoot) :
    extractXcmpChannelRoot env q.head = .ok q.channelsRoot := by
  refine extractXcmpChannelRoot_eq_ok.2 ⟨q.header, [], q.decode_head, ?_⟩
  rw [h]
  exact xcmrRoot_headerWith q.channelsRoot

/-- A smallest proof is accepted as soon as its BEEFY root was seen and its messages verify. -/
theorem accepted {s : Storage} (hs : s.seenBeefyRoots.contains q.beefyRoot = true)
    (hm : Mmr.verifyLeavesProof keccak q.channelRoot q.messages.2 q.messages.1 = true) (who : Bytes) :
    submitXcmpProof (.documented xcmrRoot) s (.signed who) q.proof q.beefyRoot = .ok () := by
  have hd := BeefyMmrLeaf.codec.decode_encode q.leaf []
  rw [List.append_nil] at hd
  have h1 : (Externals.documented xcmrRoot).verifyLeavesProof q.beefyRoot [BeefyMmrLeaf.codec.encode q.leaf]
      q.proof.stage1.1 = true := by
    rw [Externals.documented_verifyLeavesProof]
    exact Mmr.verifyLeavesProof_second keccak _ _
  refine submitXcmpProof_eq_ok.2 ⟨BeefyMmrLeaf.codec.encode q.leaf, q.leaf, [], ?_⟩
  exact
    { signed := ⟨who, rfl⟩
      seen := hs
      stage1 := h1
      leaves := rfl
      decodes := hd
      leafExtra := rfl
      count2 := show (1 : UInt64).toNat < 2 ^ 32 by decide
      index2 := show (0 : UInt64).toNat < 2 ^ 32 by decide
      stage2 := BinaryMerkle.verifyProof_sole keccak rfl
      extracted := q.extract_head _ rfl
      count3 := show (1 : UInt64).toNat < 2 ^ 32 by decide
      index3 := show (0 : UInt64).toNat < 2 ^ 32 by decide
      stage3 := BinaryMerkle.verifyProof_sole keccak rfl
      stage4 := hm }

/-- A storage that has seen the BEEFY root of the proof. -/
def seenStorage : Storage := onInitialize .genesis 1 (some q.beefyRoot)

theorem contains_seenStorage : q.seenStorage.seenBeefyRoots.contains q.beefyRoot = true := by
  simp [seenStorage, onInitialize]

end SoleProof

/-- A message leaf of the first block of a parachain. -/
def firstMessage : MmrLeaf := ⟨⟨[1, 2, 3], by decide⟩, 0, (0, H256.zero)⟩

/-- The message leaf of the second block. -/
def secondMessage : MmrLeaf := { firstMessage with parentNumberAndHash := (1, H256.zero) }

/-- The message leaf of the third block. -/
def thirdMessage : MmrLeaf := { firstMessage with parentNumberAndHash := (2, H256.zero) }

/-- The root of the range of the first two messages. -/
def messagesRoot : H256 := Mmr.mmrRoot keccak [MmrLeaf.codec.encode firstMessage, MmrLeaf.codec.encode secondMessage]

/-- The smallest proof of the message of the second block. -/
def SoleProof.honest : SoleProof where
  paraId := 1000
  channelRoot := messagesRoot
  messages := (⟨[1], 2, [keccak256 (MmrLeaf.codec.encode firstMessage)]⟩, [MmrLeaf.codec.encode secondMessage])

theorem SoleProof.honest_accepted :
    submitXcmpProof (.documented xcmrRoot) honest.seenStorage (.signed []) honest.proof honest.beefyRoot = .ok () :=
  honest.accepted honest.contains_seenStorage (Mmr.verifyLeavesProof_second keccak _ _) []

end XcmpPrototype
