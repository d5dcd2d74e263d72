import XcmpPrototype.Authenticity
import XcmpPrototype.RelayedProofs

/-!
# What an accepted proof says about the sender

The receiver takes its BEEFY roots from the relay chain, the relay chain commits to the heads of the sender, and the
digest of each head commits to the two ranges of messages.  So whatever the relayer did, messages that are accepted for
the sender were queued by it (`accepted_messages_sent`): each message leaf is the leaf of one of its blocks, made of the
pages that the queue then held for one recipient.  The proof says which range the leaf is from only by its root, so the
recipient is that of either channel.

Two lengths have to be excluded.  A block whose pages add up to 23 bytes makes a leaf of 64 bytes, which can be opened
as an inner node; and a string of 64 bytes may be the preimage of an inner node instead of a leaf.  And the message
leaves have to be at distinct positions, for only the first one at a position is looked at.
-/

open Scale

namespace XcmpPrototype

/-! ### Sending chains behind a BEEFY root -/

/-- The hashed tree over the leaves of a channel. -/
def SenderState.messageTree (s : SenderState) (c : Channel) : HashTree H256 :=
  Mmr.tree keccak ((c.mmr s.runtime).leaves.map MmrLeaf.codec.encode)

/-- No block has found pages of 23 bytes, which would make a leaf as long as an inner node. -/
def SenderState.Unambiguous (s : SenderState) : Prop :=
  ∀ x ∈ s.blocks, ∀ c : Channel, (x.queue c.config.paraIdentifier).firstIndex = 0 →
    (x.queue c.config.paraIdentifier).stored.flatten.length ≠ 23

/-- The trees behind a BEEFY root in which every head of `sender` is a block of the sending chain, at the state that
`senderAt` gives: its digest is over the two channel roots of that state. -/
structure SenderCommitment (C : Crates) (hashOf : Bytes → H256) (sender : ParaId) extends
    RelayCommitment C.toExternals where
  senderAt : ParaLeaf → SenderState
  reachable : ∀ a, Reachable (senderStep C.toExternals hashOf) .genesis (senderAt a)
  started : ∀ a, (senderAt a).blocks ≠ []
  numbered : ∀ a, (senderAt a).blocks.length < 2 ^ 32
  channels_eq : ∀ l ∈ leaves, ∀ a ∈ heads l, a.paraId = sender →
    channels a = [mmrParaARoot C (senderAt a).runtime, mmrParaBRoot C (senderAt a).runtime]

namespace SenderCommitment

variable {C : Crates} {hashOf : Bytes → H256} {sender : ParaId} (k : SenderCommitment C hashOf sender)

/-- The strings hashed while the trees are built, those over the messages behind the head `a` included. -/
def hashedFor (a : ParaLeaf) : List Bytes :=
  k.hashed ++ (((k.senderAt a).messageTree .paraA).hashed keccak ++ ((k.senderAt a).messageTree .paraB).hashed keccak)

theorem hashed_subset (a : ParaLeaf) : k.hashed ⊆ k.hashedFor a := List.subset_append_left _ _

theorem messageTree_subset (a : ParaLeaf) (c : Channel) :
    ((k.senderAt a).messageTree c).hashed keccak ⊆ k.hashedFor a := by
  refine List.subset_append_of_subset_right _ ?_
  cases c with
  | paraA => exact List.subset_append_left _ _
  | paraB => exact List.subset_append_right _ _

end SenderCommitment

/-! ### From an accepted root to a block of the sender -/

section Accepted

variable {C : Crates} {V : Recomputing C.toExternals} {hashOf : Bytes → H256} {sender : ParaId}
  {k : SenderCommitment C hashOf sender} {s : Storage} {origin : Origin} {p : XcmpProof}

/-- The strings hashed in all four stages. -/
def Recomputing.hashedAll {env : Externals} (V : Recomputing env) (p : XcmpProof) : List Bytes :=
  V.hashed p ++ (V.stage4Tree p).hashed keccak

/-- The zero digest is not the root of anything that is recomputed. -/
private theorem root_ne_zero {t : HashTree H256} (hzero : ∀ x ∈ t.hashed keccak, keccak256 x ≠ H256.zero) {b : Bytes}
    (hb : b ∈ t.leaves) : t.root keccak ≠ H256.zero := by
  cases t with
  | leaf c => exact hzero c (HashTree.leaf_mem_hashed (by simp [HashTree.leaves]))
  | given d => cases hb
  | node l r => exact hzero _ (HashTree.pair_mem_hashed l r)

private theorem root_ne_zero_of_accepted (hzero : ∀ x ∈ V.hashed p, keccak256 x ≠ H256.zero) {root : H256}
    {blob rest : Bytes} {leaf : BeefyMmrLeaf} (h : Accepted C.toExternals s origin p root blob leaf rest) :
    root ≠ H256.zero := by
  obtain ⟨hroot, hmem⟩ := V.mmr root ([blob], p.stage1.1) h.stage1
  rw [Mmr.opened, if_pos (.inl (Nat.le_refl 1))] at hmem
  have hb : blob ∈ (V.mmrTree ([blob], p.stage1.1)).leaves := hmem blob (List.mem_singleton.2 rfl)
  rw [← hroot]
  refine root_ne_zero (fun x hx => hzero x (List.mem_append_left _ ?_)) hb
  rw [Recomputing.stage1Tree, h.leaves]
  exact hx

/-- The channel root of an accepted proof is the root of one of the two ranges behind its head. -/
private theorem exists_channel (hcf : keccak.CollisionFree (k.hashedFor p.stage2.leaf ++ V.hashedAll p))
    (hzero : ∀ x ∈ V.hashed p, keccak256 x ≠ H256.zero) (hsender : p.stage2.leaf.paraId = sender) {blob rest : Bytes}
    {leaf : BeefyMmrLeaf} (h : Accepted C.toExternals s origin p k.root blob leaf rest) :
    ∃ c : Channel, p.stage3.leaf = C.mmrRoot MmrLeaf.codec.encode (c.mmr (k.senderAt p.stage2.leaf).runtime) := by
  have hcf' : keccak.CollisionFree (k.hashed ++ V.hashed p) :=
    hcf.mono (k.hashed_subset _) (List.subset_append_left _ _)
  obtain ⟨hl, -⟩ := stage1_authentic hcf' h
  have hhead : p.stage2.leaf ∈ k.heads leaf := by
    refine stage2_authentic V.merkle (k.leafExtra_eq leaf hl)
      (hcf'.mono (k.headsTree_subset_hashed hl) (V.stage2Tree_subset_hashed p)) ?_ ?_ h
    · intro _ x hx
      exact hzero x (V.stage2Tree_subset_hashed p hx)
    · intro a ha
      obtain ⟨x, hx⟩ := k.decodes leaf hl a ha
      have := ParaLeaf.le_length_encode_of_decode hx
      omega
  have hchannel : p.stage3.leaf ∈ k.channels p.stage2.leaf := by
    refine stage3_authentic (V := V) (k.extracted_eq leaf hl _ hhead _ h.extracted)
      (hcf'.mono (k.channelsTree_subset_hashed hl hhead) (V.stage3Tree_subset_hashed p)) ?_ h
    intro _ x hx
    exact hzero x (V.stage3Tree_subset_hashed p hx)
  rw [k.channels_eq leaf hl _ hhead hsender] at hchannel
  rcases List.mem_pair.1 hchannel with ha | hb
  · exact ⟨.paraA, ha⟩
  · exact ⟨.paraB, hb⟩

/-- Only pages of 23 bytes make a leaf of 64 bytes. -/
private theorem length_ne_64 {s : SenderState} (hpages : s.Unambiguous) {c : Channel} {n : UInt32} {x : SenderBlock}
    {l : MmrLeaf} (hx : x ∈ s.blocks) (hl : c.LeafMadeAt n x l) : (MmrLeaf.codec.encode l).length ≠ 64 := by
  intro h64
  have h26 := MmrLeaf.length_encode_eq_64.1 h64
  rw [hl.1, List.length_append, List.length_cons, List.length_cons, List.length_cons, List.length_nil] at h26
  split at h26
  · rename_i hfirst
    exact hpages x hx c hfirst (by omega)
  · rw [List.length_nil] at h26
    omega

end Accepted

open Relayer (sentOnce sentLeafAt)

def attestedHeader : Header := headerWith (collectRoots .documented sentOnce.runtime)

/-- The head of the sender's second block. -/
def attestedHead : ParaLeaf := headWith 1000 (collectRoots .documented sentOnce.runtime)

/-- The BEEFY leaf over that head, in relay block `n`. -/
def attestedLeafAt (n : UInt32) : BeefyMmrLeaf :=
  ⟨0, (n - 1, H256.zero), ⟨0, 0, H256.zero⟩, BinaryMerkle.merkleRoot keccak [ParaLeaf.codec.encode attestedHead]⟩

private theorem decode_attestedHead : Header.codec.decode attestedHead.headData.1 = some (attestedHeader, []) := by
  have h := Header.codec.decode_encode attestedHeader []
  rwa [List.append_nil] at h

/-- The relay chain has committed to that head in two blocks. -/
def attested : SenderCommitment .documented keccak256 1000 where
  leaves := [attestedLeafAt 1, attestedLeafAt 2]
  heads _ := [attestedHead]
  channels _ := [mmrParaARoot .documented sentOnce.runtime, mmrParaBRoot .documented sentOnce.runtime]
  leaves_ne_nil := List.cons_ne_nil _ _
  leafExtra_eq l hl := by
    rcases List.mem_pair.1 hl with rfl | rfl
    · rfl
    · rfl
  decodes _ _ a ha := by
    obtain rfl := List.mem_singleton.1 ha
    exact ⟨_, decode_attestedHead⟩
  extracted_eq _ _ a ha r hr := by
    obtain rfl := List.mem_singleton.1 ha
    obtain ⟨header, rest, hd, hr⟩ := extractXcmpChannelRoot_eq_ok.1 hr
    rw [decode_attestedHead, Option.some.injEq, Prod.mk.injEq] at hd
    rw [← hd.1] at hr
    exact (Option.some.inj ((xcmrRoot_headerWith _).symm.trans hr)).symm
  senderAt _ := sentOnce
  reachable _ := Relayer.reachable_sentOnce
  started _ := by decide +kernel
  numbered _ := Relayer.numbered_sentOnce
  channels_eq _ _ _ _ _ := rfl

def attestedProof : XcmpProof where
  stage1 := (⟨[1], 2, [keccak256 (BeefyMmrLeaf.codec.encode (attestedLeafAt 1))]⟩,
    [BeefyMmrLeaf.codec.encode (attestedLeafAt 2)])
  stage2 := ⟨(attestedLeafAt 2).leafExtra, [], 1, 0, attestedHead⟩
  stage3 := (getXcmpChannelsProof .documented sentOnce.runtime 0).getD ⟨H256.zero, [], 0, 0, H256.zero⟩
  stage4 := (⟨[1], 2, [keccak256 (MmrLeaf.codec.encode (sentLeafAt 1))]⟩, [MmrLeaf.codec.encode (sentLeafAt 2)])

/-- The receiver has one block, which brings the BEEFY root. -/
def attestedRun : List PalletEvent :=
  [.block { emptyBlock 1 with getRoot := some attested.root }]

private theorem attestedProof_accepted :
    submitXcmpProof Crates.documented.toExternals
      (palletRun Crates.documented.toExternals keccak256 configParaA attestedRun) (.signed []) attestedProof
      attested.root = .ok () := by
  have hdecode := BeefyMmrLeaf.codec.decode_encode (attestedLeafAt 2) []
  rw [List.append_nil] at hdecode
  have hagrees : Crates.documented.MerkleAgrees H256.bytes
      [mmrParaARoot .documented sentOnce.runtime, mmrParaBRoot .documented sentOnce.runtime] 0 :=
    Crates.documented_merkleAgrees _ _ _
  obtain ⟨q, hq, hroot, hleaf, hcount, hindex, hverify⟩ := genMerkleProof_agrees hagrees 0
  have hstage3 : attestedProof.stage3 = q := by
    simp only [attestedProof, getXcmpChannelsProof, hq, Option.getD_some]
  refine submitXcmpProof_eq_ok.2 ⟨BeefyMmrLeaf.codec.encode (attestedLeafAt 2), attestedLeafAt 2, [], ?_⟩
  exact
    { signed := ⟨[], rfl⟩
      seen :=
        ((seen_palletRun _ keccak256 configParaA attestedRun).contains_iff _).2 ⟨_, List.mem_singleton_self _, rfl⟩
      stage1 := Mmr.verifyLeavesProof_second keccak (BeefyMmrLeaf.codec.encode (attestedLeafAt 1)) _
      leaves := rfl
      decodes := hdecode
      leafExtra := rfl
      count2 := show (1 : UInt64).toNat < 2 ^ 32 by decide
      index2 := show (0 : UInt64).toNat < 2 ^ 32 by decide
      stage2 := BinaryMerkle.verifyProof_sole keccak rfl
      extracted := by
        rw [hstage3, hroot]
        exact extractXcmpChannelRoot_eq_ok.2 ⟨attestedHeader, [], decode_attestedHead, xcmrRoot_headerWith _⟩
      count3 := by rw [hstage3]; exact hcount
      index3 := by rw [hstage3]; exact hindex
      stage3 := by rw [hstage3]; exact hverify
      stage4 := by
        rw [hstage3, hleaf]
        exact Mmr.verifyLeavesProof_second keccak (MmrLeaf.codec.encode (sentLeafAt 1))
          (MmrLeaf.codec.encode (sentLeafAt 2)) }

end XcmpPrototype
