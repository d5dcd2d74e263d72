import XcmpPrototype.RangeProofs
import XcmpPrototype.Runtime
import XcmpPrototype.SoleProof

/-!
# Honest proofs are accepted

The runtime of a sending parachain and its relay chain hand out the four pieces of a proof separately: a leaf of the
BEEFY range, the inclusion of the parachain's head below that leaf, the inclusion of a channel root below the digest of
that head, and messages of the channel.  `assemble` puts them together.  If the generators of the other crates agree
with their checks, the result is accepted wherever the BEEFY root was seen: the tree in the digest is over encoded roots
and the tree in the proof over raw ones, which are the same bytes, counts survive their way through 64 bits, and the
head decodes to the header it was made of.  The generators of `Crates.documented` do agree with their checks in all
ranges of two or more leaves (`Crates.documented_mmrAgrees`).

The channel is the first one, for only its root is ever proven (`channelApisAgree_iff`).
-/

open Scale

namespace XcmpPrototype

variable (C : Crates)

/-! ### Generators that agree with their checks -/

/-- The proof of one leaf of a binary tree names that leaf and the root of the tree, and passes the check. -/
def Crates.MerkleAgrees {α : Type} (bytes : α → Bytes) (leaves : List α) (i : UInt32) : Prop :=
  ∀ hi : i.toNat < leaves.length, leaves.length < 2 ^ 32 →
    (C.merkleProof bytes leaves i hi).root = C.merkleRoot (leaves.map bytes) ∧
      (C.merkleProof bytes leaves i hi).leaf = leaves[i.toNat] ∧
      C.verifyProof (C.merkleRoot (leaves.map bytes)) (C.merkleProof bytes leaves i hi).proof
        (C.merkleProof bytes leaves i hi).numberOfLeaves (C.merkleProof bytes leaves i hi).leafIndex
        (bytes leaves[i.toNat]) = true

/-- For distinct blocks of the range, with the current block as the best known one, a proof of their leaves is
generated and passes the check against the current root. -/
def Crates.MmrAgrees {α : Type} (encode : α → Bytes) (m : MmrState α) (blockNumbers : List UInt32)
    (bestKnownBlockNumber : Option UInt32) : Prop :=
  ∀ leaves, blockNumbers ≠ [] → blockNumbers.Nodup → blockNumbers.mapM m.leafAt = some leaves →
    bestKnownBlockNumber.getD m.blockNumber = m.blockNumber →
    ∃ q, C.generateProof encode m blockNumbers bestKnownBlockNumber = .ok (leaves, q) ∧
      C.verifyLeavesProof (C.mmrRoot encode m) (leaves.map encode) q = true

/-! ### The pieces of a proof -/

/-- The proof of a parachain's head as the relay chain hands it out. -/
def paraMerkleProof (heads : List ParaLeaf) (i : UInt32) (hi : i.toNat < heads.length) : ParaMerkleProof :=
  let merkleProof := C.merkleProof ParaLeaf.codec.encode heads i hi
  ⟨merkleProof.root, merkleProof.proof, merkleProof.numberOfLeaves.toUInt64, merkleProof.leafIndex.toUInt64,
    merkleProof.leaf⟩

/-- The proof made of the leaf of block `n` of the BEEFY range, of the head at index `i`, of the first channel and of
the messages of the given blocks in it. -/
def assemble (st : RuntimeState) (relay : MmrState BeefyMmrLeaf) (n : UInt32) (heads : List ParaLeaf) (i : UInt32)
    (hi : i.toNat < heads.length) (blockNumbers : List UInt32) (bestKnownBlockNumber : Option UInt32) :
    Option XcmpProof := do
  let stage1 ← (C.generateProof BeefyMmrLeaf.codec.encode relay [n] none).toOption
  let stage3 ← genMerkleProof C st 0
  let stage4 ← (generateProofApi C st blockNumbers bestKnownBlockNumber 0).toOption
  return ⟨(stage1.2, stage1.1.map BeefyMmrLeaf.codec.encode), paraMerkleProof C heads i hi, stage3,
    (stage4.2, stage4.1)⟩

theorem toUInt64_toUInt32 (x : UInt32) : x.toUInt64.toNat < 2 ^ 32 ∧ x.toUInt64.toUInt32 = x := by
  refine ⟨?_, UInt32.toUInt32_toUInt64 x⟩
  rw [UInt32.toNat_toUInt64]
  exact x.toNat_lt

private theorem exists_mapM_eq_some {α β : Type} {f : α → Option β} {l : List α} (h : ∀ a ∈ l, ∃ b, f a = some b) :
    ∃ bs, l.mapM f = some bs := by
  induction l with
  | nil => exact ⟨[], rfl⟩
  | cons a l ih =>
    obtain ⟨b, hb⟩ := h a List.mem_cons_self
    obtain ⟨bs, hbs⟩ := ih fun a ha => h a (List.mem_cons_of_mem _ ha)
    exact ⟨b :: bs, by simp [List.mapM_cons, hb, hbs]⟩

variable {C}

/-- The channel proof has the root that is put into the digest. -/
theorem genMerkleProof_agrees {st : RuntimeState}
    (h : C.MerkleAgrees H256.bytes [mmrParaARoot C st, mmrParaBRoot C st] 0) (channelId : UInt64) :
    ∃ q, genMerkleProof C st channelId = some q ∧ q.root = collectRoots C st ∧ q.leaf = mmrParaARoot C st ∧
      q.numLeaves.toNat < 2 ^ 32 ∧ q.leafIndex.toNat < 2 ^ 32 ∧
      C.verifyProof q.root q.proof q.numLeaves.toUInt32 q.leafIndex.toUInt32 q.leaf.bytes = true := by
  have hencode : [mmrParaARoot C st, mmrParaBRoot C st].map H256.bytes =
      [mmrParaARoot C st, mmrParaBRoot C st].map H256.codec.encode := rfl
  obtain ⟨hroot, hleaf, hverify⟩ := h (by simp) (by simp)
  refine ⟨_, rfl, ?_, hleaf, (toUInt64_toUInt32 _).1, (toUInt64_toUInt32 _).1, ?_⟩
  · rw [hroot, hencode]
    rfl
  · rw [(toUInt64_toUInt32 _).2, (toUInt64_toUInt32 _).2, hroot, hleaf]
    exact hverify

/-- A head that encodes a header with the collected roots in its digest leads to them. -/
private theorem extract_of_encode {env : Externals} {a : ParaLeaf} {header : Header} {r : H256}
    (ha : a.headData.1 = Header.codec.encode header) (hr : env.extractXcmpChannelMerkleRoot header.digest = some r) :
    extractXcmpChannelRoot env a = .ok r := by
  have hd := Header.codec.decode_encode header []
  rw [List.append_nil, ← ha] at hd
  exact extractXcmpChannelRoot_eq_ok.2 ⟨header, [], hd, hr⟩

/-- An honest proof is accepted from every signed origin wherever the BEEFY root was seen. -/
theorem submitXcmpProof_assemble (st : RuntimeState) (header : Header) (heads : List ParaLeaf) (i : UInt32)
    (hi : i.toNat < heads.length) (leaf : BeefyMmrLeaf) (relay : MmrState BeefyMmrLeaf) (n : UInt32)
    (blockNumbers : List UInt32) (bestKnownBlockNumber : Option UInt32)
    (hmmr1 : C.MmrAgrees BeefyMmrLeaf.codec.encode relay [n] none)
    (hmerkle2 : C.MerkleAgrees ParaLeaf.codec.encode heads i)
    (hmerkle3 : C.MerkleAgrees H256.bytes [mmrParaARoot C st, mmrParaBRoot C st] 0)
    (hmmr4 : C.MmrAgrees MmrLeaf.codec.encode st.mmrParaA blockNumbers bestKnownBlockNumber)
    (hdigest : C.extractXcmpChannelMerkleRoot header.digest = some (collectRoots C st))
    (hhead : heads[i.toNat].headData.1 = Header.codec.encode header) (hcount : heads.length < 2 ^ 32)
    (hextra : leaf.leafExtra = C.merkleRoot (heads.map ParaLeaf.codec.encode)) (hleaf : relay.leafAt n = some leaf)
    (hne : blockNumbers ≠ []) (hnodup : blockNumbers.Nodup)
    (hrange : ∀ k ∈ blockNumbers, ∃ l, st.mmrParaA.leafAt k = some l)
    (hbest : bestKnownBlockNumber.getD st.mmrParaA.blockNumber = st.mmrParaA.blockNumber) :
    ∃ p, assemble C st relay n heads i hi blockNumbers bestKnownBlockNumber = some p ∧
      ∀ (s : Storage) (who : Bytes),
        s.seenBeefyRoots.contains (C.mmrRoot BeefyMmrLeaf.codec.encode relay) = true →
        submitXcmpProof C.toExternals s (.signed who) p (C.mmrRoot BeefyMmrLeaf.codec.encode relay) = .ok () := by
  obtain ⟨q1, hq1, hv1⟩ := hmmr1 [leaf] (by simp) (by simp) (by simp [hleaf]) rfl
  obtain ⟨hroot2, hleaf2, hv2⟩ := hmerkle2 hi hcount
  obtain ⟨q3, hq3, hroot3, hleaf3, hcount3, hindex3, hv3⟩ := genMerkleProof_agrees hmerkle3 0
  obtain ⟨leaves, hleaves⟩ := exists_mapM_eq_some hrange
  obtain ⟨q4, hq4, hv4⟩ := hmmr4 leaves hne hnodup hleaves hbest
  have hapi : generateProofApi C st blockNumbers bestKnownBlockNumber 0 =
      .ok (leaves.map MmrLeaf.codec.encode, q4) := by
    simp [generateProofApi, hq4, Except.map]
  refine ⟨_, by simp only [assemble, hq1, hq3, hapi]; rfl, ?_⟩
  intro s who hseen
  have hdecode := BeefyMmrLeaf.codec.decode_encode leaf []
  rw [List.append_nil] at hdecode
  refine submitXcmpProof_eq_ok.2 ⟨BeefyMmrLeaf.codec.encode leaf, leaf, [], ?_⟩
  exact
    { signed := ⟨who, rfl⟩
      seen := hseen
      stage1 := hv1
      leaves := rfl
      decodes := hdecode
      leafExtra := hextra.trans hroot2.symm
      count2 := (toUInt64_toUInt32 _).1
      index2 := (toUInt64_toUInt32 _).1
      stage2 := by
        simp only [paraMerkleProof, (toUInt64_toUInt32 _).2, hroot2, hleaf2]
        exact hv2
      extracted := by
        simp only [paraMerkleProof, hleaf2, hroot3]
        exact extract_of_encode hhead hdigest
      count3 := hcount3
      index3 := hindex3
      stage3 := hv3
      stage4 := by
        rw [hleaf3]
        exact hv4 }

/-! ### Which channel is proven -/

/-- The root of a channel and the channel proof that the runtime interface hands out for an id belong together: the
proof is for that root, against the collected roots, and passes the third stage; an id without a root has no proof. -/
def ChannelApisAgree (C : Crates) (st : RuntimeState) (channelId : UInt64) : Prop :=
  (∀ r, mmrRootApi C st channelId = .ok r →
    ∃ q, getXcmpChannelsProof C st channelId = some q ∧ q.leaf = r ∧ q.root = collectRoots C st ∧
      q.numLeaves.toNat < 2 ^ 32 ∧ q.leafIndex.toNat < 2 ^ 32 ∧
      C.verifyProof q.root q.proof q.numLeaves.toUInt32 q.leafIndex.toUInt32 q.leaf.bytes = true) ∧
    ∀ e, mmrRootApi C st channelId = .error e → getXcmpChannelsProof C st channelId = none

private theorem mmrRootApi_one (st : RuntimeState) : mmrRootApi C st 1 = .ok (mmrParaBRoot C st) := rfl

private theorem mmrRootApi_of_ne {channelId : UInt64} (h0 : channelId ≠ 0) (h1 : channelId ≠ 1) (st : RuntimeState) :
    mmrRootApi C st channelId = .error .getRoot := by
  unfold mmrRootApi
  split
  · exact absurd rfl h0
  · exact absurd rfl h1
  · rfl

/-- The proof is always for the first channel, so the two interfaces agree on the id of the first channel, and on the id
of the second one as long as both channels have the same root. -/
theorem channelApisAgree_iff (st : RuntimeState) (channelId : UInt64)
    (hmerkle : C.MerkleAgrees H256.bytes [mmrParaARoot C st, mmrParaBRoot C st] 0) :
    ChannelApisAgree C st channelId ↔
      channelId = 0 ∨ (channelId = 1 ∧ mmrParaARoot C st = mmrParaBRoot C st) := by
  obtain ⟨q, hq, hroot, hleaf, hcount, hindex, hverify⟩ := genMerkleProof_agrees hmerkle channelId
  constructor
  · rintro ⟨hok, herror⟩
    by_cases h0 : channelId = 0
    · exact .inl h0
    by_cases h1 : channelId = 1
    · subst h1
      obtain ⟨q', hq', hleaf', -⟩ := hok _ (mmrRootApi_one st)
      obtain rfl : q = q' := Option.some.inj (hq.symm.trans hq')
      exact .inr ⟨rfl, hleaf.symm.trans hleaf'⟩
    · have hnone := herror _ (mmrRootApi_of_ne h0 h1 st)
      cases hq.symm.trans hnone
  · intro h
    have hapi : mmrRootApi C st channelId = .ok (mmrParaARoot C st) := by
      rcases h with rfl | ⟨rfl, hab⟩
      · rfl
      · rw [mmrRootApi_one, hab]
    refine ⟨fun r hr => ?_, fun e he => ?_⟩
    · rw [hapi, Except.ok.injEq] at hr
      exact ⟨q, hq, hleaf.trans hr, hroot, hcount, hindex, hverify⟩
    · rw [hapi] at he
      cases he

/-! ### The generators of the other crates -/

/-- `block_num_to_leaf_index`: the index of the leaf that was added in block `n`. -/
def MmrState.leafIndex {α : Type} (m : MmrState α) (n : UInt32) : Option ℕ :=
  if n.toNat ≤ m.blockNumber.toNat ∧ m.blockNumber.toNat < n.toNat + m.leaves.length then
    some (m.leaves.length + n.toNat - (m.blockNumber.toNat + 1))
  else none

/-- `pallet_mmr::Pallet::generate_proof`: the leaves come in the order of the block numbers, and the proof is in the
range up to the best known block. -/
def MmrState.generateProof {α : Type} (encode : α → Bytes) (m : MmrState α) (blockNumbers : List UInt32)
    (bestKnownBlockNumber : Option UInt32) : Except MmrError (List α × MmrProof) :=
  match m.leafIndex (bestKnownBlockNumber.getD m.blockNumber), blockNumbers.mapM m.leafIndex,
    blockNumbers.mapM m.leafAt with
  | some last, some is, some leaves =>
    if is = [] ∨ ∃ i ∈ is, last < i then .error .generateProof
    else .ok (leaves, ⟨is.map UInt64.ofNat, UInt64.ofNat (last + 1),
      Mmr.items keccak ((m.leaves.take (last + 1)).map encode) is⟩)
  | _, _, _ => .error .other

/-- The other crates, on ranges of fewer than `2 ^ 63` leaves. -/
def Crates.documented : Crates where
  toExternals := .documented xcmrRoot
  merkleRoot := BinaryMerkle.merkleRoot keccak
  merkleProof bytes leaves i hi :=
    ⟨BinaryMerkle.merkleRoot keccak (leaves.map bytes),
      BinaryMerkle.siblings keccak leaves.length ((leaves.map bytes).map .leaf) i.toNat, UInt32.ofNat leaves.length, i,
      leaves[i.toNat]⟩
  mmrRoot encode m := Mmr.mmrRoot keccak (m.leaves.map encode)
  generateProof := MmrState.generateProof

theorem Crates.documented_merkleAgrees {α : Type} (bytes : α → Bytes) (leaves : List α) (i : UInt32) :
    documented.MerkleAgrees bytes leaves i := by
  intro hi hlen
  have h := BinaryMerkle.verifyProof_siblings keccak (leaves.map bytes) (by rwa [List.length_map]) (i := i)
    (b := bytes leaves[i.toNat]) (by simp [hi])
  rw [List.length_map] at h
  exact ⟨rfl, rfl, h⟩

private theorem mapM_eq_some_iff {α β : Type} {f : α → Option β} {l : List α} {l' : List β} :
    l.mapM f = some l' ↔ List.Forall₂ (fun a b => f a = some b) l l' := by
  induction l generalizing l' with
  | nil => cases l' <;> simp
  | cons a l ih => cases l' <;> simp [List.mapM_cons, Option.bind_eq_some_iff, ih, and_comm]

/-- A leaf and its index belong to the same block. -/
private theorem leafAt_eq_some_iff {α : Type} {m : MmrState α} {n : UInt32} {l : α} :
    m.leafAt n = some l ↔ ∃ i, m.leafIndex n = some i ∧ m.leaves[i]? = some l := by
  unfold MmrState.leafAt MmrState.leafIndex
  split <;> simp

private theorem leafIndex_inj {α : Type} {m : MmrState α} {n k : UInt32} {i : ℕ} (hn : m.leafIndex n = some i)
    (hk : m.leafIndex k = some i) : n = k := by
  unfold MmrState.leafIndex at hn hk
  split at hn
  · split at hk
    · rw [Option.some.injEq] at hn hk
      exact UInt32.toNat_inj.1 (by omega)
    · cases hk
  · cases hn

private theorem exists_leafIndices {α : Type} {m : MmrState α} {blockNumbers : List UInt32} {leaves : List α}
    (h : List.Forall₂ (fun n l => m.leafAt n = some l) blockNumbers leaves) :
    ∃ is, List.Forall₂ (fun n i => m.leafIndex n = some i) blockNumbers is ∧
      List.Forall₂ (fun i l => m.leaves[i]? = some l) is leaves ∧ ∀ i ∈ is, i < m.leaves.length := by
  induction h with
  | nil => exact ⟨[], .nil, .nil, by simp⟩
  | cons hl _ ih =>
    obtain ⟨is, hindex, hleaf, hlt⟩ := ih
    obtain ⟨i, hi, hli⟩ := leafAt_eq_some_iff.1 hl
    exact ⟨i :: is, .cons hi hindex, .cons hli hleaf,
      List.forall_mem_cons.2 ⟨(List.getElem?_eq_some_iff.1 hli).1, hlt⟩⟩

private theorem leafIndex_blockNumber {α : Type} {m : MmrState α} (h : 0 < m.leaves.length) :
    m.leafIndex m.blockNumber = some (m.leaves.length - 1) := by
  rw [MmrState.leafIndex, if_pos ⟨le_rfl, by omega⟩]
  exact congrArg some (by omega)

/-- What is generated with the current block as the best known one. -/
theorem generateProof_eq {α : Type} (encode : α → Bytes) {m : MmrState α} {blockNumbers : List UInt32}
    {bestKnownBlockNumber : Option UInt32} {leaves : List α} {is : List ℕ} (hpos : 0 < m.leaves.length) (hne : is ≠ [])
    (hindices : blockNumbers.mapM m.leafIndex = some is) (hlt : ∀ i ∈ is, i < m.leaves.length)
    (hleaves : blockNumbers.mapM m.leafAt = some leaves)
    (hbest : bestKnownBlockNumber.getD m.blockNumber = m.blockNumber) :
    m.generateProof encode blockNumbers bestKnownBlockNumber = .ok (leaves, ⟨is.map UInt64.ofNat,
      UInt64.ofNat m.leaves.length, Mmr.items keccak (m.leaves.map encode) is⟩) := by
  have hcond : ¬ (is = [] ∨ ∃ i ∈ is, m.leaves.length - 1 < i) := by
    rintro (hnil | ⟨i, hi, hlast⟩)
    · exact hne hnil
    · have := hlt i hi
      omega
  have hsucc : m.leaves.length - 1 + 1 = m.leaves.length := by omega
  rw [MmrState.generateProof, hbest, leafIndex_blockNumber hpos, hindices, hleaves]
  simp only [hcond, ↓reduceIte, hsucc, List.take_length]

/-- In a range of at least two leaves generated proofs are accepted. -/
theorem Crates.documented_mmrAgrees {α : Type} (encode : α → Bytes) {m : MmrState α} (htwo : 2 ≤ m.leaves.length)
    (hlen : m.leaves.length < 2 ^ 63) (blockNumbers : List UInt32) (bestKnownBlockNumber : Option UInt32) :
    documented.MmrAgrees encode m blockNumbers bestKnownBlockNumber := by
  intro leaves hne hnodup hleaves hbest
  obtain ⟨is, hindex, hleaf, hlt⟩ := exists_leafIndices (mapM_eq_some_iff.1 hleaves)
  have his : is ≠ [] := by
    rintro rfl
    exact hne (List.forall₂_nil_right_iff.1 hindex)
  have htoNat : ∀ i ∈ is, (UInt64.ofNat i).toNat = i := by
    intro i hi
    have := hlt i hi
    exact UInt64.toNat_ofNat_of_lt' (show i < 2 ^ 64 by omega)
  refine ⟨_, generateProof_eq encode (by omega) his (mapM_eq_some_iff.2 hindex) hlt hleaves hbest, ?_⟩
  have hnodup' : (is.map UInt64.ofNat).Nodup := by
    have hunique : Relator.BiUnique fun n i => m.leafIndex n = some i :=
      ⟨fun _ _ _ ha hb => leafIndex_inj ha hb, fun _ _ _ ha hb => Option.some.inj (ha.symm.trans hb)⟩
    refine ((List.rel_nodup hunique hindex).1 hnodup).map_on fun i hi j hj hij => ?_
    rw [← htoNat i hi, hij, htoNat j hj]
  have hls : List.Forall₂ (fun i b => (m.leaves.map encode)[i.toNat]? = some b) (is.map UInt64.ofNat)
      (leaves.map encode) := by
    rw [List.forall₂_map_left_iff, List.forall₂_map_right_iff]
    obtain ⟨heq, hzip⟩ := List.forall₂_iff_zip.1 hleaf
    refine List.forall₂_iff_zip.2 ⟨heq, fun {i l} hil => ?_⟩
    rw [htoNat i (List.of_mem_zip hil).1, List.getElem?_map, hzip hil]
    rfl
  have h := Mmr.verifyLeavesProof_items (H := keccak) (by rwa [List.length_map]) (by rw [List.length_map]; omega)
    hnodup' hls
  have hmap : (is.map UInt64.ofNat).map UInt64.toNat = is := by
    rw [List.map_map]
    conv_rhs => rw [← List.map_id is]
    exact List.map_congr_left htoNat
  rw [hmap, List.length_map] at h
  exact h

/-! ### A chain with three blocks -/

/-- A parachain in its first block, with one message leaf in each of its ranges. -/
def firstBlock : RuntimeState := { RuntimeState.genesis with
  mmrParaA := ⟨[firstMessage], 1⟩
  mmrParaB := ⟨[⟨⟨[1, 2, 3, 4], by decide⟩, 0, (0, H256.zero)⟩], 1⟩ }

/-- The parachain in its third block. -/
def thirdBlock : RuntimeState := { firstBlock with mmrParaA := ⟨[firstMessage, secondMessage, thirdMessage], 3⟩ }

/-- The heads of three parachains, with the sending one in the middle. -/
def thirdHeads : List ParaLeaf :=
  [⟨1, ⟨[5], by decide⟩⟩, headWith 1000 (collectRoots .documented thirdBlock), ⟨2000, ⟨[6], by decide⟩⟩]

/-- The BEEFY leaf over these heads, in relay block `n`. -/
def relayLeafAt (n : UInt32) : BeefyMmrLeaf :=
  ⟨0, (n - 1, H256.zero), ⟨0, 0, H256.zero⟩, BinaryMerkle.merkleRoot keccak (thirdHeads.map ParaLeaf.codec.encode)⟩

/-- A relay chain with three blocks. -/
def relayRange : MmrState BeefyMmrLeaf := ⟨[relayLeafAt 1, relayLeafAt 2, relayLeafAt 3], 3⟩

/-- The messages of two blocks, through the BEEFY leaf of a block that is neither the first nor the last one. -/
theorem submitXcmpProof_assemble_thirdBlock :
    ∃ p, assemble .documented thirdBlock relayRange 2 thirdHeads 1 (by decide) [3, 1] none = some p ∧
      ∀ (s : Storage) (who : Bytes),
        s.seenBeefyRoots.contains (Crates.documented.mmrRoot BeefyMmrLeaf.codec.encode relayRange) = true →
        submitXcmpProof (.documented xcmrRoot) s (.signed who) p
          (Crates.documented.mmrRoot BeefyMmrLeaf.codec.encode relayRange) = .ok () :=
  submitXcmpProof_assemble (C := .documented) thirdBlock (headerWith (collectRoots .documented thirdBlock)) thirdHeads 1
    (by decide) (relayLeafAt 2) relayRange 2 [3, 1] none
    (Crates.documented_mmrAgrees _ (by decide) (by decide) _ _) (Crates.documented_merkleAgrees _ _ _)
    (Crates.documented_merkleAgrees _ _ _) (Crates.documented_mmrAgrees _ (by decide) (by decide) _ _)
    (xcmrRoot_headerWith _) rfl (by decide) rfl rfl (by simp) (by simp)
    (by intro k hk; rcases List.mem_pair.1 hk with rfl | rfl <;> exact ⟨_, rfl⟩) rfl

theorem channelApisAgree_iff_firstBlock :
    ChannelApisAgree .documented firstBlock 0 ↔
      (0 : UInt64) = 0 ∨
        ((0 : UInt64) = 1 ∧ mmrParaARoot .documented firstBlock = mmrParaBRoot .documented firstBlock) :=
  channelApisAgree_iff firstBlock 0 (Crates.documented_merkleAgrees _ _ _)

/-- In the first block the proof for the second channel is not for its root, and there is a proof for a third channel,
which has no root. -/
theorem channelApis_disagree :
    ¬ ChannelApisAgree .documented firstBlock 1 ∧ ¬ ChannelApisAgree .documented firstBlock 2 := by
  constructor
  · intro h
    obtain ⟨q, hq, hleaf, -⟩ := h.1 _ (mmrRootApi_one firstBlock)
    cases hq
    revert hleaf
    show mmrParaARoot .documented firstBlock ≠ mmrParaBRoot .documented firstBlock
    decide +kernel
  · intro h
    cases h.2 .getRoot rfl

end XcmpPrototype
