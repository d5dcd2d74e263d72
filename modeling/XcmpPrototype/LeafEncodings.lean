import XcmpPrototype.Aggregation
import XcmpPrototype.Completeness

/-!
# The bytes of a message leaf

A message leaf starts with its messages, of any length and content, and ends with the number and hash of the parent
block.  Its encoding can be read back without knowing where it ends, so the encodings of two leaves differ whenever the
leaves do, and the leaves of different blocks differ in the number (`leaves_distinct`).

For the same reason a leaf can be read from bytes that go on behind it.  The runtime interface has two checks of message
proofs: one decodes the leaves and encodes them again, the other takes the bytes as they are.  They agree only on bytes
that end with the leaf, and not on a range of one leaf (`verifyProof_agrees_iff`).
-/

open Scale

namespace XcmpPrototype

/-! ### The leaves of a chain -/

/-- The number of the last block, and the leaves of a channel up to it. -/
structure LeafChain where
  blockNumber : UInt32
  leaves : List MmrLeaf

def LeafChain.genesis : LeafChain := ⟨0, []⟩

/-- What a block finds when its leaf is made. -/
structure BlockInput where
  queue : OutboundQueue
  storage : Storage
  parentHash : H256

/-- `ParentNumberAndHash`: the subtraction saturates. -/
def parentNumberAndHash (blockNumber : UInt32) (parentHash : H256) : UInt32 × H256 :=
  (if blockNumber = 0 then 0 else blockNumber - 1, parentHash)

variable (cfg : Config) (hashOf : Bytes → H256)

/-- One block. -/
def blockStep (s : LeafChain) (x : BlockInput) : Option LeafChain :=
  (leafDataOf cfg hashOf (getXcmpMessages x.queue) x.storage
    (parentNumberAndHash (s.blockNumber + 1) x.parentHash)).map fun r => ⟨s.blockNumber + 1, s.leaves ++ [r.2]⟩

variable {cfg hashOf} {s s' : LeafChain}

private theorem leafDataOf_parent {getMessages : H256 → ParaId → Option Bytes} {st : Storage} {parent : UInt32 × H256}
    {r : Storage × MmrLeaf} (h : leafDataOf cfg hashOf getMessages st parent = some r) :
    r.2.parentNumberAndHash = parent := by
  unfold leafDataOf at h
  cases hm : getMessages parent.2 cfg.paraIdentifier with
  | none =>
    rw [hm] at h
    cases h
  | some msgBuffer =>
    rw [hm] at h
    by_cases hlen : msgBuffer.length < 2 ^ 32
    · simp only [hlen, ↓reduceDIte, Option.some.injEq] at h
      rw [← h]
      rfl
    · simp only [hlen, ↓reduceDIte] at h
      cases h

private theorem toNat_parent {n : UInt32} (h : n.toNat + 1 < 2 ^ 32) (parentHash : H256) :
    (n + 1).toNat = n.toNat + 1 ∧ (parentNumberAndHash (n + 1) parentHash).1 = n := by
  have hsucc : (n + 1).toNat = n.toNat + 1 := by
    rw [UInt32.toNat_add, UInt32.toNat_one]
    omega
  refine ⟨hsucc, ?_⟩
  have hne : n + 1 ≠ 0 := by
    intro h0
    rw [h0, UInt32.toNat_zero] at hsucc
    omega
  simp only [parentNumberAndHash, hne, ↓reduceIte]
  exact add_sub_cancel_right n 1

/-- As long as block numbers do not run out, leaf `i` names block `i` as its parent. -/
def Counted (s : LeafChain) : Prop :=
  s.leaves.length < 2 ^ 32 → s.blockNumber.toNat = s.leaves.length ∧
    s.leaves.map (fun l => l.parentNumberAndHash.1.toNat) = List.range s.leaves.length

private theorem Counted.step {x : BlockInput} (h : Counted s) (hs : blockStep cfg hashOf s x = some s') :
    Counted s' := by
  obtain ⟨r, hr, rfl⟩ := Option.map_eq_some_iff.1 hs
  intro hlen
  simp only [List.length_append, List.length_singleton] at hlen ⊢
  obtain ⟨hnumber, hrange⟩ := h (by omega)
  obtain ⟨hsucc, hparent⟩ := toNat_parent (n := s.blockNumber) (by omega) x.parentHash
  refine ⟨by omega, ?_⟩
  rw [List.map_append, hrange, List.range_succ, List.map_singleton, leafDataOf_parent hr, hparent, hnumber]

/-- In every run of fewer than `2 ^ 32` blocks, whatever the queue holds at each of them, the encodings of the leaves
are pairwise distinct; and the encoding of a leaf is read back in front of any bytes. -/
theorem leaves_distinct (cfg : Config) (hashOf : Bytes → H256) (s : LeafChain)
    (h : Reachable (blockStep cfg hashOf) .genesis s) (hlen : s.leaves.length < 2 ^ 32) :
    (s.leaves.map MmrLeaf.codec.encode).Pairwise (fun a b => a ≠ b) ∧
      ∀ (leaf : MmrLeaf) (t : Bytes), MmrLeaf.codec.decode (MmrLeaf.codec.encode leaf ++ t) = some (leaf, t) := by
  have hcounted : Counted s := h.invariant (fun _ => ⟨rfl, rfl⟩) fun _ _ _ ih _ hs => ih.step hs
  refine ⟨?_, MmrLeaf.codec.decode_encode⟩
  have hnumbers : (s.leaves.map fun l => l.parentNumberAndHash.1.toNat).Nodup := by
    rw [(hcounted hlen).2]
    exact List.nodup_range
  exact (List.Nodup.of_map _ hnumbers).map MmrLeaf.codec.encode_injective

/-- Two blocks with the same messages. -/
theorem leaves_distinct_two :
    ∃ s, Reachable (blockStep configParaA keccak256) .genesis s ∧
      s.leaves.map (fun l => l.xcmpMsgs.1) = [[1, 2, 3, 7, 8], [1, 2, 3, 7, 8]] ∧
      (s.leaves.map MmrLeaf.codec.encode).Pairwise (fun a b => a ≠ b) := by
  have h : (run (blockStep configParaA keccak256) .genesis
      [⟨gapQueue, .genesis, H256.zero⟩, ⟨gapQueue, .genesis, H256.zero⟩]).map
        (fun s => s.leaves.map fun l => l.xcmpMsgs.1) = some [[1, 2, 3, 7, 8], [1, 2, 3, 7, 8]] := by
    decide +kernel
  obtain ⟨s, hs, hmsgs⟩ := Option.map_eq_some_iff.1 h
  have hlen : s.leaves.length = 2 := by
    have := congrArg List.length hmsgs
    rwa [List.length_map] at this
  exact ⟨s, reaches_of_run _ hs, hmsgs,
    (leaves_distinct configParaA keccak256 s (reaches_of_run _ hs) (by omega)).1⟩

/-! ### The checks of the runtime interface -/

/-- The other crates with `pallet_mmr::Pallet::verify_leaves`, the check against the range of an instance. -/
structure CheckingCrates extends Crates where
  verifyLeaves : {α : Type} → (α → Bytes) → MmrState α → List α → MmrProof → Except MmrError Unit

variable (C : CheckingCrates)

/-- `OpaqueLeaf::try_decode`: what follows the leaf is not read. -/
def tryDecode (leaf : EncodableOpaqueLeaf) : Option MmrLeaf := (MmrLeaf.codec.decode leaf).map Prod.fst

/-- `MmrApi::verify_proof`. -/
def verifyProofApi (st : RuntimeState) (leaves : List EncodableOpaqueLeaf) (proof : MmrProof) : Except MmrError Unit :=
  match leaves.mapM tryDecode with
  | none => .error .verify
  | some leaves => C.verifyLeaves MmrLeaf.codec.encode st.mmrParaA leaves proof

/-- `MmrApi::verify_proof_stateless`. -/
def verifyProofStatelessApi (root : H256) (leaves : List EncodableOpaqueLeaf) (proof : MmrProof) :
    Except MmrError Unit :=
  if C.verifyLeavesProof root leaves proof then .ok () else .error .verify

/-- Both checks recompute the root in the same way, from encoded leaves or from the given bytes; a check of all leaves
of an instance is against its current root.  The root of a range of one leaf is that leaf itself: the stateful check
compares leaves there, and the stateless one accepts no leaf. -/
structure CheckingCrates.SameCheck where
  tree : List Bytes → MmrProof → Option (HashTree H256)
  recomputes : RecomputesLeaves keccak C.verifyLeavesProof tree Mmr.Proof.Separates
  current : ∀ {α : Type} (encode : α → Bytes) (m : MmrState α) (leaves : List α) (proof : MmrProof),
    proof.leafCount.toNat = m.leaves.length → proof.leafCount ≠ 1 → C.verifyLeaves encode m leaves proof = .ok () →
    C.verifyLeavesProof (C.mmrRoot encode m) (leaves.map encode) proof = true
  soleStateful : ∀ {α : Type} (encode : α → Bytes) (m : MmrState α) (leaves : List α) (proof : MmrProof),
    proof.leafCount = 1 → C.verifyLeaves encode m leaves proof = .ok () → leaves.length = 1
  soleStateless : ∀ (root : H256) (blobs : List Bytes) (proof : MmrProof), proof.leafCount = 1 → blobs.length = 1 →
    C.verifyLeavesProof root blobs proof = false

variable {C} {blobs : List EncodableOpaqueLeaf} {leaves : List MmrLeaf}

private theorem mapM_tryDecode_cons {b : EncodableOpaqueLeaf} (h : (b :: blobs).mapM tryDecode = some leaves) :
    ∃ l t ls, MmrLeaf.codec.decode b = some (l, t) ∧ blobs.mapM tryDecode = some ls ∧ leaves = l :: ls := by
  simp only [List.mapM_cons, Option.pure_def, Option.bind_eq_bind, Option.bind_eq_some_iff, Option.some.injEq] at h
  obtain ⟨l, hl, ls, hls, rfl⟩ := h
  obtain ⟨x, hx, rfl⟩ := Option.map_eq_some_iff.1 hl
  exact ⟨x.1, x.2, ls, hx, hls, rfl⟩

private theorem length_of_mapM_tryDecode (h : blobs.mapM tryDecode = some leaves) : leaves.length = blobs.length := by
  induction blobs generalizing leaves with
  | nil =>
    cases h
    rfl
  | cons b blobs ih =>
    obtain ⟨l, t, ls, -, hls, rfl⟩ := mapM_tryDecode_cons h
    simp [ih hls]

/-- Decoded leaves are encoded to the same bytes again exactly when nothing followed them. -/
private theorem map_encode_eq_iff (h : blobs.mapM tryDecode = some leaves) :
    leaves.map MmrLeaf.codec.encode = blobs ↔
      ∀ blob ∈ blobs, ∃ leaf, MmrLeaf.codec.decode blob = some (leaf, []) := by
  induction blobs generalizing leaves with
  | nil =>
    cases h
    simp
  | cons b blobs ih =>
    obtain ⟨l, t, ls, hb, hls, rfl⟩ := mapM_tryDecode_cons h
    have hbytes := MmrLeaf.codec.eq_encode_of_decode hb
    rw [List.map_cons, List.cons.injEq, ih hls, List.forall_mem_cons]
    refine and_congr_left fun _ => ?_
    constructor
    · intro heq
      have ht : t = [] := by
        rw [heq] at hbytes
        exact List.self_eq_append_right.1 hbytes
      exact ⟨l, by rw [hb, ht]⟩
    · rintro ⟨leaf, hleaf⟩
      rw [hb] at hleaf
      cases hleaf
      rw [hbytes, List.append_nil]

/-- When the stateful check accepts a proof of separate leaves in the whole range, and no two of the strings hashed by
the two checks collide, the stateless check against the current root accepts it too exactly if the range has not just
one leaf and no bytes follow any of the given leaves. -/
theorem verifyProof_agrees_iff (C : CheckingCrates) (V : C.SameCheck) (st : RuntimeState)
    (blobs : List EncodableOpaqueLeaf) (proof : MmrProof)
    (hcount : proof.leafCount.toNat = st.mmrParaA.leaves.length) (hsep : proof.Separates blobs.length)
    (hcf : ∀ leaves, blobs.mapM tryDecode = some leaves →
      keccak.CollisionFree (hashedBy keccak V.tree (leaves.map MmrLeaf.codec.encode) proof ++
        hashedBy keccak V.tree blobs proof))
    (hok : verifyProofApi C st blobs proof = .ok ()) :
    verifyProofStatelessApi C (mmrParaARoot C.toCrates st) blobs proof = .ok () ↔
      st.mmrParaA.leaves.length ≠ 1 ∧ ∀ blob ∈ blobs, ∃ leaf, MmrLeaf.codec.decode blob = some (leaf, []) := by
  unfold verifyProofApi at hok
  cases hleaves : blobs.mapM tryDecode with
  | none =>
    rw [hleaves] at hok
    cases hok
  | some leaves =>
    rw [hleaves] at hok
    have hlen : leaves.length = blobs.length := length_of_mapM_tryDecode hleaves
    have hstateless : verifyProofStatelessApi C (mmrParaARoot C.toCrates st) blobs proof = .ok () ↔
        C.verifyLeavesProof (mmrParaARoot C.toCrates st) blobs proof = true := by
      simp [verifyProofStatelessApi]
    have hone : proof.leafCount = 1 ↔ st.mmrParaA.leaves.length = 1 := by
      rw [← hcount, ← UInt64.toNat_inj, UInt64.toNat_one]
    rw [hstateless, ← map_encode_eq_iff hleaves]
    by_cases hsole : proof.leafCount = 1
    · -- the stateful check has compared the only leaf, which the stateless check rejects
      have hblobs : blobs.length = 1 := hlen ▸ V.soleStateful _ _ leaves proof hsole hok
      rw [V.soleStateless _ blobs proof hsole hblobs]
      simp [hone.1 hsole]
    · have haccepted :
          C.verifyLeavesProof (mmrParaARoot C.toCrates st) (leaves.map MmrLeaf.codec.encode) proof = true :=
        V.current MmrLeaf.codec.encode st.mmrParaA leaves proof hcount hsole hok
      constructor
      · intro hv
        refine ⟨hone.not.1 hsole, V.recomputes.eq_of_verify ?_ ?_ haccepted hv (hcf leaves hleaves)⟩
        · rw [List.length_map, hlen]
        · rwa [List.length_map, hlen]
      · rintro ⟨-, heq⟩
        rw [heq] at haccepted
        exact haccepted

/-! ### A leaf and a padded leaf -/

/-- The other crates with the stateful check.  A proof over fewer leaves than there are is checked against the root that
the range then had; the root of one leaf is the leaf. -/
def CheckingCrates.documented : CheckingCrates where
  toCrates := .documented
  verifyLeaves encode m leaves proof :=
    if proof.leafCount.toNat > m.leaves.length ∨ proof.leafCount = 0 ∨
        proof.items.length + leaves.length > proof.leafCount.toNat then .error .verify
    else if proof.leafCount = 1 then
      if proof.leafIndices = [0] ∧ leaves.map encode = (m.leaves.take 1).map encode then .ok () else .error .verify
    else if Mmr.verifyLeavesProof keccak (Mmr.mmrRoot keccak ((m.leaves.take proof.leafCount.toNat).map encode))
        (leaves.map encode) proof then .ok ()
    else .error .verify

def CheckingCrates.documented_sameCheck : documented.SameCheck where
  tree := Mmr.proofTree keccak
  recomputes := Mmr.verifyLeavesProof_recomputesLeaves keccak
  current encode m leaves proof hcount hsole hok := by
    simp only [documented, hsole, ↓reduceIte] at hok
    split at hok
    · cases hok
    · split at hok
      · rename_i hv
        rw [hcount, List.take_length] at hv
        exact hv
      · cases hok
  soleStateful encode m leaves proof hsole hok := by
    simp only [documented, hsole, ↓reduceIte] at hok
    split at hok
    · cases hok
    · rename_i hcount
      split at hok
      · rename_i hleaves
        have hlen := congrArg List.length hleaves.2
        simp only [List.length_map, List.length_take] at hlen
        simp only [not_or, not_lt, UInt64.toNat_one] at hcount
        omega
      · cases hok
  soleStateless root blobs proof hsole hblobs := Mmr.verifyLeavesProof_sole keccak root hsole hblobs

/-- The second block, with two message leaves. -/
def secondBlock : RuntimeState := { firstBlock with mmrParaA := ⟨[firstMessage, secondMessage], 2⟩ }

/-- The proof of the second leaf. -/
def secondProof : MmrProof := ⟨[1], 2, [keccak256 (MmrLeaf.codec.encode firstMessage)]⟩

private theorem mapM_secondMessage (t : Bytes) :
    [MmrLeaf.codec.encode secondMessage ++ t].mapM tryDecode = some [secondMessage] := by
  simp [tryDecode, MmrLeaf.codec.decode_encode]

private theorem verifyProofApi_secondMessage (t : Bytes) :
    verifyProofApi .documented secondBlock [MmrLeaf.codec.encode secondMessage ++ t] secondProof = .ok () := by
  have hv : Mmr.verifyLeavesProof keccak messagesRoot [MmrLeaf.codec.encode secondMessage] secondProof = true :=
    Mmr.verifyLeavesProof_second keccak _ _
  simp only [verifyProofApi, mapM_secondMessage]
  exact if_pos hv

theorem verifyProof_agrees_iff_secondMessage :
    verifyProofApi .documented secondBlock [MmrLeaf.codec.encode secondMessage ++ []] secondProof = .ok () ∧
      verifyProofStatelessApi .documented (mmrParaARoot .documented secondBlock)
        [MmrLeaf.codec.encode secondMessage ++ []] secondProof = .ok () := by
  refine ⟨verifyProofApi_secondMessage [], (verifyProof_agrees_iff .documented CheckingCrates.documented_sameCheck
    secondBlock [MmrLeaf.codec.encode secondMessage ++ []] secondProof rfl (by decide) ?_
    (verifyProofApi_secondMessage [])).2 ⟨by decide, ?_⟩⟩
  · intro leaves hleaves
    rw [mapM_secondMessage] at hleaves
    cases hleaves
    exact keccak.collisionFree_of_nodup (by decide +kernel)
  · intro blob hblob
    rw [List.mem_singleton.1 hblob]
    exact ⟨secondMessage, MmrLeaf.codec.decode_encode secondMessage []⟩

/-- A leaf with one more byte is accepted by the stateful check and not by the stateless one. -/
theorem verifyProof_padded :
    secondProof.leafCount.toNat = secondBlock.mmrParaA.leaves.length ∧
      keccak.CollisionFree
        (hashedBy keccak (Mmr.proofTree keccak) [MmrLeaf.codec.encode secondMessage] secondProof ++
          hashedBy keccak (Mmr.proofTree keccak) [MmrLeaf.codec.encode secondMessage ++ [0]] secondProof) ∧
      verifyProofApi .documented secondBlock [MmrLeaf.codec.encode secondMessage ++ [0]] secondProof = .ok () ∧
      verifyProofStatelessApi .documented (mmrParaARoot .documented secondBlock)
        [MmrLeaf.codec.encode secondMessage ++ [0]] secondProof = .error .verify := by
  refine ⟨rfl, keccak.collisionFree_of_nodup (by decide +kernel), verifyProofApi_secondMessage [0], ?_⟩
  decide +kernel

end XcmpPrototype
