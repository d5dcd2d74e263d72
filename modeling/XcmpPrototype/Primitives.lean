import XcmpPrototype.Keccak
import XcmpPrototype.MerkleTrees

/-!
# Chain data

The values that travel between the chains, with their SCALE codecs: digests, block headers, the leaves of the BEEFY
mountain range, of the tree of parachain heads and of a channel's mountain range, and the proof in four stages.  Field
order is declaration order; a version is one byte and the number of a header is compact.

The three kinds of committed leaves never have the 64 bytes of an inner node: a BEEFY leaf has 113 bytes
(`BeefyMmrLeaf.length_encode`), the leaf of a head that decodes to a header at least 104
(`ParaLeaf.le_length_encode_of_decode`), and a channel root 32.
-/

open Scale

namespace XcmpPrototype

/-! ### Digests -/

/-- `H256`: 32 bytes in lexicographic order. -/
@[ext] structure H256 where
  bytes : Bytes
  length_bytes : bytes.length = 32
  deriving DecidableEq

namespace H256

instance : Ord H256 := ⟨compareOn bytes⟩

instance : Std.TransOrd H256 := inferInstanceAs (Std.TransCmp (compareOn bytes))

instance : Std.LawfulEqOrd H256 where
  eq_of_compare h := H256.ext (Std.LawfulEqOrd.eq_of_compare h)

def zero : H256 := ⟨List.replicate 32 0, List.length_replicate⟩

instance : Inhabited H256 := ⟨zero⟩

/-- The digest whose bytes are all `b`. -/
def repeatByte (b : UInt8) : H256 := ⟨List.replicate 32 b, List.length_replicate⟩

def codec : Codec H256 :=
  (Codec.array 32).ofEquiv ⟨fun b => ⟨b.1, b.2⟩, fun h => ⟨h.1, h.2⟩, fun _ => rfl, fun _ => rfl⟩

@[simp] theorem encode_eq_bytes (h : H256) : codec.encode h = h.bytes := rfl

theorem bytes_injective : Function.Injective bytes := fun _ _ h => H256.ext h

end H256

def keccak256 (b : Bytes) : H256 := ⟨Keccak.digest b, Keccak.length_digest b⟩

/-- Keccak-256 as the hash of all trees; the root of the tree of no leaves is the zero digest. -/
def keccak : Hashing H256 where
  hash := keccak256
  toBytes := H256.bytes
  width := 32
  empty := H256.zero
  length_toBytes := H256.length_bytes
  toBytes_injective := H256.bytes_injective

@[simp] theorem keccak_width : keccak.width = 32 := rfl

/-! ### Headers -/

/-- An item of a header's digest. -/
inductive DigestItem where
  | other (data : Vec UInt8)
  | consensus (engine : {b : Bytes // b.length = 4}) (data : Vec UInt8)
  | sealed (engine : {b : Bytes // b.length = 4}) (data : Vec UInt8)
  | preRuntime (engine : {b : Bytes // b.length = 4}) (data : Vec UInt8)
  | runtimeEnvironmentUpdated
  deriving DecidableEq

namespace DigestItem

def engineData : Codec ({b : Bytes // b.length = 4} × Vec UInt8) := (Codec.array 4).prod byteVec

def encode : DigestItem → Bytes
  | other d => 0 :: byteVec.encode d
  | consensus e d => 4 :: engineData.encode (e, d)
  | sealed e d => 5 :: engineData.encode (e, d)
  | preRuntime e d => 6 :: engineData.encode (e, d)
  | runtimeEnvironmentUpdated => [8]

def decode : Bytes → Option (DigestItem × Bytes)
  | 0 :: b => (byteVec.decode b).map fun x => (other x.1, x.2)
  | 4 :: b => (engineData.decode b).map fun x => (consensus x.1.1 x.1.2, x.2)
  | 5 :: b => (engineData.decode b).map fun x => (sealed x.1.1 x.1.2, x.2)
  | 6 :: b => (engineData.decode b).map fun x => (preRuntime x.1.1 x.1.2, x.2)
  | 8 :: b => some (runtimeEnvironmentUpdated, b)
  | _ => none

def codec : Codec DigestItem where
  encode := encode
  decode := decode
  decode_encode i t := by
    cases i <;> simp [encode, decode, byteVec.decode_encode, engineData.decode_encode]
  eq_encode_of_decode {b i t} h := by
    unfold decode at h
    split at h
    · simp only [Option.map_eq_some_iff, Prod.mk.injEq] at h
      obtain ⟨x, hx, rfl, rfl⟩ := h
      rw [byteVec.eq_encode_of_decode hx]; rfl
    · simp only [Option.map_eq_some_iff, Prod.mk.injEq] at h
      obtain ⟨x, hx, rfl, rfl⟩ := h
      rw [engineData.eq_encode_of_decode hx]; rfl
    · simp only [Option.map_eq_some_iff, Prod.mk.injEq] at h
      obtain ⟨x, hx, rfl, rfl⟩ := h
      rw [engineData.eq_encode_of_decode hx]; rfl
    · simp only [Option.map_eq_some_iff, Prod.mk.injEq] at h
      obtain ⟨x, hx, rfl, rfl⟩ := h
      rw [engineData.eq_encode_of_decode hx]; rfl
    · cases h; rfl
    · cases h

end DigestItem

abbrev Digest := Vec DigestItem

/-- `generic::Header<u32, BlakeTwo256>`. -/
structure Header where
  parentHash : H256
  number : UInt32
  stateRoot : H256
  extrinsicsRoot : H256
  digest : Digest
  deriving DecidableEq

namespace Header

def codec : Codec Header :=
  (H256.codec.prod (compact.prod (H256.codec.prod (H256.codec.prod (vec DigestItem.codec))))).ofEquiv
    { toFun := fun x => ⟨x.1, x.2.1, x.2.2.1, x.2.2.2.1, x.2.2.2.2⟩
      invFun := fun h => (h.parentHash, h.number, h.stateRoot, h.extrinsicsRoot, h.digest)
      left_inv := fun _ => rfl
      right_inv := fun _ => rfl }

theorem le_length_encode (h : Header) : 98 ≤ (codec.encode h).length := by
  have h1 := length_encodeCompact_pos h.number.toNat
  have h2 := length_encodeCompact_pos h.digest.1.length
  show 98 ≤ (h.parentHash.bytes ++ (encodeCompact h.number.toNat ++ (h.stateRoot.bytes ++ (h.extrinsicsRoot.bytes ++
    (encodeCompact h.digest.1.length ++ encodeList DigestItem.codec h.digest.1))))).length
  simp only [List.length_append, H256.length_bytes]
  omega

end Header

/-! ### Leaves -/

abbrev ParaId := UInt32

/-- `BeefyNextAuthoritySet`. -/
structure BeefyAuthoritySet where
  id : UInt64
  len : UInt32
  keysetCommitment : H256
  deriving DecidableEq

/-- `sp_consensus_beefy::mmr::MmrLeaf<u32, H256, H256, H256>`. -/
structure BeefyMmrLeaf where
  version : UInt8
  parentNumberAndHash : UInt32 × H256
  beefyNextAuthoritySet : BeefyAuthoritySet
  leafExtra : H256
  deriving DecidableEq

namespace BeefyMmrLeaf

def codec : Codec BeefyMmrLeaf :=
  (u8.prod ((u32.prod H256.codec).prod ((u64.prod (u32.prod H256.codec)).prod H256.codec))).ofEquiv
    { toFun := fun x => ⟨x.1, x.2.1, ⟨x.2.2.1.1, x.2.2.1.2.1, x.2.2.1.2.2⟩, x.2.2.2⟩
      invFun := fun l => (l.version, l.parentNumberAndHash,
        (l.beefyNextAuthoritySet.id, l.beefyNextAuthoritySet.len, l.beefyNextAuthoritySet.keysetCommitment), l.leafExtra)
      left_inv := fun _ => rfl
      right_inv := fun _ => rfl }

/-- A BEEFY leaf has 113 bytes. -/
theorem length_encode (l : BeefyMmrLeaf) : (codec.encode l).length = 113 := by
  show (u8.encode l.version ++ ((u32.encode l.parentNumberAndHash.1 ++ l.parentNumberAndHash.2.bytes) ++
    ((u64.encode l.beefyNextAuthoritySet.id ++ (u32.encode l.beefyNextAuthoritySet.len ++
      l.beefyNextAuthoritySet.keysetCommitment.bytes)) ++ l.leafExtra.bytes))).length = 113
  simp only [List.length_append, H256.length_bytes, length_encode_u8, length_encode_u32, length_encode_u64]

end BeefyMmrLeaf

/-- A parachain and its head, a leaf of the tree whose root is the `leafExtra` of a BEEFY leaf. -/
structure ParaLeaf where
  paraId : ParaId
  headData : Vec UInt8
  deriving DecidableEq

namespace ParaLeaf

def codec : Codec ParaLeaf :=
  (u32.prod byteVec).ofEquiv ⟨fun x => ⟨x.1, x.2⟩, fun l => (l.paraId, l.headData), fun _ => rfl, fun _ => rfl⟩

theorem length_encode (l : ParaLeaf) :
    (codec.encode l).length = 4 + (encodeCompact l.headData.1.length).length + l.headData.1.length := by
  show (u32.encode l.paraId ++ byteVec.encode l.headData).length = _
  rw [encode_byteVec, List.length_append, List.length_append, length_encode_u32]
  omega

/-- The leaf of a head that decodes to a header has at least 104 bytes. -/
theorem le_length_encode_of_decode {l : ParaLeaf} {x : Header × Bytes}
    (h : Header.codec.decode l.headData.1 = some x) : 104 ≤ (codec.encode l).length := by
  have h1 := Header.codec.le_length_of_decode Header.le_length_encode h
  have h2 := two_le_length_encodeCompact (x := l.headData.1.length) (by omega)
  rw [length_encode]
  omega

/-- A leaf has the length of an inner node exactly when its head has 59 bytes. -/
theorem length_encode_eq_64 {l : ParaLeaf} : (codec.encode l).length = 64 ↔ l.headData.1.length = 59 := by
  rw [length_encode]
  constructor
  · intro h
    by_cases h6 : l.headData.1.length < 2 ^ 6
    · simp only [encodeCompact, h6, ↓reduceIte, length_leBytes] at h
      omega
    · have := length_encodeCompact_pos l.headData.1.length
      omega
  · intro h
    rw [h]
    rfl

end ParaLeaf

/-- The leaf of a channel's mountain range, one for each block. -/
structure MmrLeaf where
  xcmpMsgs : Vec UInt8
  version : UInt8
  parentNumberAndHash : UInt32 × H256
  deriving DecidableEq

def MmrLeaf.codec : Codec MmrLeaf :=
  (byteVec.prod (u8.prod (u32.prod H256.codec))).ofEquiv
    ⟨fun x => ⟨x.1, x.2.1, x.2.2⟩, fun l => (l.xcmpMsgs, l.version, l.parentNumberAndHash), fun _ => rfl, fun _ => rfl⟩

/-- A message leaf has the length of an inner node exactly when its messages have 26 bytes. -/
theorem MmrLeaf.length_encode_eq_64 {l : MmrLeaf} : (codec.encode l).length = 64 ↔ l.xcmpMsgs.1.length = 26 := by
  have hlength : (codec.encode l).length =
      (encodeCompact l.xcmpMsgs.1.length).length + l.xcmpMsgs.1.length + 37 := by
    show (byteVec.encode l.xcmpMsgs ++ (u8.encode l.version ++ (u32.encode l.parentNumberAndHash.1 ++
      l.parentNumberAndHash.2.bytes))).length = _
    simp only [encode_byteVec, List.length_append, length_encode_u8, length_encode_u32, H256.length_bytes]
  rw [hlength]
  constructor
  · intro h
    by_cases h6 : l.xcmpMsgs.1.length < 2 ^ 6
    · simp only [encodeCompact, h6, ↓reduceIte, length_leBytes] at h
      omega
    · have := length_encodeCompact_pos l.xcmpMsgs.1.length
      omega
  · intro h
    rw [h]
    rfl

/-! ### Proofs -/

abbrev MmrProof := Mmr.Proof H256

/-- The encoded form of a leaf, hashed as it is. -/
abbrev EncodableOpaqueLeaf := Bytes

/-- The SCALE form of a list of leaves. -/
def opaqueLeaves : Codec (Vec (Vec UInt8)) := vec byteVec

def MmrProof.codec : Codec (Vec UInt64 × UInt64 × Vec H256) := (vec u64).prod (u64.prod (vec H256.codec))

/-- The inclusion of a head in the tree of parachain heads. -/
structure ParaMerkleProof where
  root : H256
  proof : List H256
  numLeaves : UInt64
  leafIndex : UInt64
  leaf : ParaLeaf
  deriving DecidableEq

/-- The inclusion of a channel's root in the tree of channel roots. -/
structure ChannelMerkleProof where
  root : H256
  proof : List H256
  numLeaves : UInt64
  leafIndex : UInt64
  leaf : H256
  deriving DecidableEq

structure XcmpProof where
  stage1 : MmrProof × List EncodableOpaqueLeaf
  stage2 : ParaMerkleProof
  stage3 : ChannelMerkleProof
  stage4 : MmrProof × List EncodableOpaqueLeaf
  deriving DecidableEq

end XcmpPrototype
