import XcmpPrototype.SoleProof

/-!
# What an accepted proof authenticates

A BEEFY root commits, through three nested trees, to the channel roots of every parachain.  The prover chooses every
count, index and sibling of a proof, so the shape of the claimed trees says nothing; what remains is the length of the
hashed strings.  The verifiers of the other crates enter only through the property that they accept by recomputing the
root (`Recomputing`).

* The path from a BEEFY root to a channel root is authentic when every committed head decodes to a header.
* Message leaves are authentic up to the preimages of inner nodes, when no two of them are at the same position and no
  committed message leaf has 64 bytes.
* A parachain that commits a head of 59 bytes has a leaf of 64 bytes and can open it as an inner node.
-/

open Scale

namespace XcmpPrototype

/-! ### Verifiers that recompute the root -/

/-- The verifiers accept only when the root is recomputed from the hashes of the given leaves, in a mountain range from
those of leaves at distinct positions; the recomputed trees are part of the assumption, so that one can speak of the
strings hashed in them. -/
structure Recomputing (env : Externals) where
  mmrTree : List Bytes × MmrProof → HashTree H256
  merkleTree : BinaryMerkle.Proof H256 → HashTree H256
  mmr : Recomputes keccak (fun root p => env.verifyLeavesProof root p.1 p.2) mmrTree Mmr.opened
  merkle : Recomputes keccak (fun root p => env.verifyProof root p.proof p.numberOfLeaves p.leafIndex p.leaf) merkleTree
    (fun p => [p.leaf])

def Recomputing.documented (extract : Digest → Option H256) : Recomputing (Externals.documented extract) where
  mmrTree := Mmr.checkedTree keccak
  merkleTree := BinaryMerkle.checkedTree
  mmr := Mmr.verifyLeavesProof_recomputes keccak
  merkle := BinaryMerkle.verifyProof_recomputes keccak

/-- What the second stage hands to the check of a binary tree. -/
def XcmpProof.stage2Claim (p : XcmpProof) : BinaryMerkle.Proof H256 :=
  ⟨p.stage2.proof, p.stage2.numLeaves.toUInt32, p.stage2.leafIndex.toUInt32, ParaLeaf.codec.encode p.stage2.leaf⟩

/-- What the third stage hands to the check of a binary tree. -/
def XcmpProof.stage3Claim (p : XcmpProof) : BinaryMerkle.Proof H256 :=
  ⟨p.stage3.proof, p.stage3.numLeaves.toUInt32, p.stage3.leafIndex.toUInt32, p.stage3.leaf.bytes⟩

namespace Recomputing

variable {env : Externals} (V : Recomputing env) (p : XcmpProof)

def stage1Tree : HashTree H256 := V.mmrTree (p.stage1.2, p.stage1.1)

def stage2Tree : HashTree H256 := V.merkleTree p.stage2Claim

def stage3Tree : HashTree H256 := V.merkleTree p.stage3Claim

def stage4Tree : HashTree H256 := V.mmrTree (p.stage4.2, p.stage4.1)

/-- The strings hashed in the first three stages. -/
def hashed : List Bytes :=
  (V.stage1Tree p).hashed keccak ++ ((V.stage2Tree p).hashed keccak ++ (V.stage3Tree p).hashed keccak)

theorem stage2Tree_subset_hashed : (V.stage2Tree p).hashed keccak ⊆ V.hashed p :=
  List.subset_append_of_subset_right _ (List.subset_append_left _ _)

theorem stage3Tree_subset_hashed : (V.stage3Tree p).hashed keccak ⊆ V.hashed p :=
  List.subset_append_of_subset_right _ (List.subset_append_right _ _)

variable {V p}

/-- Where a leaf of an accepted proof lies in the mountain range of `bs`. -/
theorem mem_mmr_or {bs : List Bytes} (hne : bs ≠ []) {q : List Bytes × MmrProof} (hsep : q.2.Separates q.1.length)
    (hacc : env.verifyLeavesProof (Mmr.mmrRoot keccak bs) q.1 q.2 = true)
    (hcf : keccak.CollisionFree ((Mmr.tree keccak bs).hashed keccak ++ (V.mmrTree q).hashed keccak)) {b : Bytes}
    (hb : b ∈ q.1) : b ∈ bs ∨ b ∈ (Mmr.tree keccak bs).inner keccak ∨ ∃ c ∈ bs, c.length = 64 := by
  obtain ⟨hroot, hmem⟩ := V.mmr _ q hacc
  rw [Mmr.opened, if_pos hsep] at hmem
  have h := HashTree.mem_leaves_or hroot hcf (by rw [Mmr.givens_tree keccak hne]; simp) (hmem b hb)
  simpa only [Mmr.mem_leaves_tree keccak hne, keccak_width, Nat.reduceMul] using h

end Recomputing

/-- A leaf of an accepted proof against a binary tree is committed unless lengths confuse it with an inner node. -/
theorem mem_merkle_of_accepted {env : Externals} {merkleTree : BinaryMerkle.Proof H256 → HashTree H256}
    (hrec : Recomputes keccak (fun root p => env.verifyProof root p.proof p.numberOfLeaves p.leafIndex p.leaf)
      merkleTree (fun p => [p.leaf])) {bs : List Bytes} {q : BinaryMerkle.Proof H256}
    (hacc : env.verifyProof (BinaryMerkle.merkleRoot keccak bs) q.proof q.numberOfLeaves q.leafIndex q.leaf = true)
    (hcf : keccak.CollisionFree ((BinaryMerkle.tree keccak bs).hashed keccak ++ (merkleTree q).hashed keccak))
    (hempty : bs = [] → ∀ x ∈ (merkleTree q).hashed keccak, keccak256 x ≠ H256.zero)
    (hlen : ∀ c ∈ bs, c.length ≠ 64) (hq : q.leaf.length ≠ 64) : q.leaf ∈ bs := by
  obtain ⟨hroot, hmem⟩ := hrec _ q hacc
  have hgiven : ∀ d ∈ (BinaryMerkle.tree keccak bs).givens, ∀ x ∈ (merkleTree q).hashed keccak, keccak.hash x ≠ d := by
    intro d hd
    by_cases hbs : bs = []
    · rw [BinaryMerkle.givens_tree keccak hd]
      exact hempty hbs
    · rw [BinaryMerkle.givens_tree_eq_nil keccak hbs] at hd
      cases hd
  have h := HashTree.mem_leaves_of_root_eq hroot hcf hgiven
    (by rw [BinaryMerkle.leaves_tree]; exact hlen) (hmem q.leaf (by simp)) hq
  rwa [BinaryMerkle.leaves_tree] at h

/-! ### From a BEEFY root to a channel root -/

/-- The three nested trees behind a BEEFY root: leaves of the mountain range, the heads committed by each leaf, and the
channel roots committed by each head.  Every head decodes to a header. -/
structure RelayCommitment (env : Externals) where
  leaves : List BeefyMmrLeaf
  heads : BeefyMmrLeaf → List ParaLeaf
  channels : ParaLeaf → List H256
  leaves_ne_nil : leaves ≠ []
  leafExtra_eq : ∀ l ∈ leaves, l.leafExtra = BinaryMerkle.merkleRoot keccak ((heads l).map ParaLeaf.codec.encode)
  decodes : ∀ l ∈ leaves, ∀ a ∈ heads l, ∃ x, Header.codec.decode a.headData.1 = some x
  extracted_eq : ∀ l ∈ leaves, ∀ a ∈ heads l, ∀ r, extractXcmpChannelRoot env a = .ok r →
    r = BinaryMerkle.merkleRoot keccak ((channels a).map H256.bytes)

namespace RelayCommitment

variable {env : Externals} (c : RelayCommitment env)

def encodedLeaves : List Bytes := c.leaves.map BeefyMmrLeaf.codec.encode

def root : H256 := Mmr.mmrRoot keccak c.encodedLeaves

def headsTree (l : BeefyMmrLeaf) : HashTree H256 := BinaryMerkle.tree keccak ((c.heads l).map ParaLeaf.codec.encode)

def channelsTree (a : ParaLeaf) : HashTree H256 := BinaryMerkle.tree keccak ((c.channels a).map H256.bytes)

/-- The strings hashed while the trees are built. -/
def hashed : List Bytes :=
  (Mmr.tree keccak c.encodedLeaves).hashed keccak ++
    c.leaves.flatMap fun l =>
      (c.headsTree l).hashed keccak ++ (c.heads l).flatMap fun a => (c.channelsTree a).hashed keccak

theorem headsTree_subset_hashed {l : BeefyMmrLeaf} (hl : l ∈ c.leaves) :
    (c.headsTree l).hashed keccak ⊆ c.hashed := by
  intro x hx
  exact List.mem_append_right _ (List.mem_flatMap.2 ⟨l, hl, List.mem_append_left _ hx⟩)

theorem channelsTree_subset_hashed {l : BeefyMmrLeaf} (hl : l ∈ c.leaves) {a : ParaLeaf} (ha : a ∈ c.heads l) :
    (c.channelsTree a).hashed keccak ⊆ c.hashed := by
  intro x hx
  refine List.mem_append_right _ (List.mem_flatMap.2 ⟨l, hl, List.mem_append_right _ ?_⟩)
  exact List.mem_flatMap.2 ⟨a, ha, hx⟩

/-- Some tree of heads or of channel roots has no leaves, so its root is the zero digest. -/
def HasEmptyTree : Prop := ∃ l ∈ c.leaves, c.heads l = [] ∨ ∃ a ∈ c.heads l, c.channels a = []

end RelayCommitment

variable {env : Externals} {V : Recomputing env} {c : RelayCommitment env} {s : Storage} {origin : Origin}
  {p : XcmpProof}

/-- Stage 1: the only leaf of an accepted proof is an encoded leaf of the committed range. -/
theorem stage1_authentic {blob rest : Bytes} {leaf : BeefyMmrLeaf}
    (hcf : keccak.CollisionFree (c.hashed ++ V.hashed p)) (h : Accepted env s origin p c.root blob leaf rest) :
    leaf ∈ c.leaves ∧ blob = BeefyMmrLeaf.codec.encode leaf := by
  have hne : c.encodedLeaves ≠ [] := by simpa [RelayCommitment.encodedLeaves] using c.leaves_ne_nil
  have hlen : 113 ≤ blob.length :=
    BeefyMmrLeaf.codec.le_length_of_decode (fun l => (BeefyMmrLeaf.length_encode l).ge) h.decodes
  have hacc : env.verifyLeavesProof (Mmr.mmrRoot keccak c.encodedLeaves) p.stage1.2 p.stage1.1 = true := by
    rw [h.leaves]; exact h.stage1
  have hcf' : keccak.CollisionFree ((Mmr.tree keccak c.encodedLeaves).hashed keccak ++
      (V.mmrTree (p.stage1.2, p.stage1.1)).hashed keccak) :=
    hcf.mono (List.subset_append_left _ _) (List.subset_append_left _ _)
  have hmem : blob ∈ c.encodedLeaves := by
    have hsep : p.stage1.1.Separates p.stage1.2.length := .inl (by simp [h.leaves])
    rcases Recomputing.mem_mmr_or hne (q := (p.stage1.2, p.stage1.1)) hsep hacc hcf' (b := blob) (by simp [h.leaves])
      with hb | hb | ⟨b, hb, h64⟩
    · exact hb
    · have := HashTree.length_of_mem_inner hb
      rw [keccak_width] at this
      omega
    · obtain ⟨l, -, rfl⟩ := List.mem_map.1 hb
      rw [BeefyMmrLeaf.length_encode] at h64
      omega
  obtain ⟨l, hl, rfl⟩ := List.mem_map.1 hmem
  have hd := BeefyMmrLeaf.codec.decode_encode l []
  rw [List.append_nil, h.decodes, Option.some.injEq, Prod.mk.injEq] at hd
  rw [hd.1]
  exact ⟨hl, rfl⟩

/-- Stage 2: the head of an accepted proof is committed by the leaf it was proven under. -/
theorem stage2_authentic {merkleTree : BinaryMerkle.Proof H256 → HashTree H256}
    (hrec : Recomputes keccak (fun root p => env.verifyProof root p.proof p.numberOfLeaves p.leafIndex p.leaf)
      merkleTree (fun p => [p.leaf])) {blob rest : Bytes} {leaf : BeefyMmrLeaf} {heads : List ParaLeaf}
    (hroot : leaf.leafExtra = BinaryMerkle.merkleRoot keccak (heads.map ParaLeaf.codec.encode))
    (hcf : keccak.CollisionFree ((BinaryMerkle.tree keccak (heads.map ParaLeaf.codec.encode)).hashed keccak ++
      (merkleTree p.stage2Claim).hashed keccak))
    (hempty : heads = [] → ∀ x ∈ (merkleTree p.stage2Claim).hashed keccak, keccak256 x ≠ H256.zero)
    (hlen : ∀ a ∈ heads, (ParaLeaf.codec.encode a).length ≠ 64) {root : H256}
    (h : Accepted env s origin p root blob leaf rest) : p.stage2.leaf ∈ heads := by
  obtain ⟨header, t, hd, -⟩ := extractXcmpChannelRoot_eq_ok.1 h.extracted
  have hleaf : p.stage2Claim.leaf.length ≠ 64 := by
    have := ParaLeaf.le_length_encode_of_decode hd
    simp only [XcmpProof.stage2Claim]
    omega
  have hacc := h.stage2
  rw [← h.leafExtra, hroot] at hacc
  have hmem := mem_merkle_of_accepted hrec (q := p.stage2Claim) hacc hcf
    (fun he => hempty (List.map_eq_nil_iff.1 he)) (by simpa using hlen) hleaf
  obtain ⟨a, ha, he⟩ := List.mem_map.1 hmem
  rwa [← ParaLeaf.codec.encode_injective he]

/-- Stage 3: the channel root of an accepted proof is committed by the head it was proven under. -/
theorem stage3_authentic {blob rest : Bytes} {leaf : BeefyMmrLeaf} {channels : List H256}
    (hroot : p.stage3.root = BinaryMerkle.merkleRoot keccak (channels.map H256.bytes))
    (hcf : keccak.CollisionFree
      ((BinaryMerkle.tree keccak (channels.map H256.bytes)).hashed keccak ++ (V.stage3Tree p).hashed keccak))
    (hempty : channels = [] → ∀ x ∈ (V.stage3Tree p).hashed keccak, keccak256 x ≠ H256.zero) {root : H256}
    (h : Accepted env s origin p root blob leaf rest) : p.stage3.leaf ∈ channels := by
  have hacc := h.stage3
  rw [hroot] at hacc
  have hlen : ∀ r : H256, r.bytes.length ≠ 64 := fun r => by rw [r.length_bytes]; decide
  have hmem := mem_merkle_of_accepted V.merkle (q := p.stage3Claim) hacc hcf
    (fun he => hempty (List.map_eq_nil_iff.1 he)) (by simpa using fun r _ => hlen r) (hlen _)
  obtain ⟨r, hr, he⟩ := List.mem_map.1 hmem
  rwa [← H256.bytes_injective he]

/-- The path from a BEEFY root to a channel root is authentic: a proof accepted against the root of the committed trees
opens a committed leaf, a head committed by that leaf and a channel root committed by that head.  When one of the trees
is empty its root is the zero digest, which must then not be the hash of a string of the proof. -/
theorem submitXcmpProof_path_authentic (env : Externals) (V : Recomputing env) (c : RelayCommitment env) (s : Storage)
    (origin : Origin) (p : XcmpProof) (hcf : keccak.CollisionFree (c.hashed ++ V.hashed p))
    (hempty : c.HasEmptyTree → ∀ x ∈ V.hashed p, keccak256 x ≠ H256.zero)
    (h : submitXcmpProof env s origin p c.root = .ok ()) :
    ∃ l ∈ c.leaves, p.stage1.2 = [BeefyMmrLeaf.codec.encode l] ∧ p.stage2.leaf ∈ c.heads l ∧
      p.stage3.leaf ∈ c.channels p.stage2.leaf := by
  obtain ⟨blob, l, rest, h⟩ := submitXcmpProof_eq_ok.1 h
  obtain ⟨hl, rfl⟩ := stage1_authentic hcf h
  have h2 : p.stage2.leaf ∈ c.heads l := by
    refine stage2_authentic V.merkle (c.leafExtra_eq l hl)
      (hcf.mono (c.headsTree_subset_hashed hl) (V.stage2Tree_subset_hashed p)) ?_ ?_ h
    · intro he x hx
      exact hempty ⟨l, hl, Or.inl he⟩ x (V.stage2Tree_subset_hashed p hx)
    · intro a ha
      obtain ⟨x, hx⟩ := c.decodes l hl a ha
      have := ParaLeaf.le_length_encode_of_decode hx
      omega
  refine ⟨l, hl, h.leaves, h2, ?_⟩
  refine stage3_authentic (V := V) (c.extracted_eq l hl _ h2 _ h.extracted)
    (hcf.mono (c.channelsTree_subset_hashed hl h2) (V.stage3Tree_subset_hashed p)) ?_ h
  intro he x hx
  exact hempty ⟨l, hl, Or.inr ⟨_, h2, he⟩⟩ x (V.stage3Tree_subset_hashed p hx)

/-- The trees behind a smallest proof. -/
def SoleProof.commitment (q : SoleProof) : RelayCommitment (.documented xcmrRoot) where
  leaves := [q.firstLeaf, q.leaf]
  heads _ := [q.head]
  channels _ := [q.channelRoot]
  leaves_ne_nil := List.cons_ne_nil _ _
  leafExtra_eq l hl := by
    rcases List.mem_pair.1 hl with rfl | rfl
    · rfl
    · rfl
  decodes _ _ a ha := by
    obtain rfl := List.mem_singleton.1 ha
    exact ⟨_, q.decode_head⟩
  extracted_eq _ _ a ha r hr := by
    obtain rfl := List.mem_singleton.1 ha
    rw [q.extract_head _ rfl, Except.ok.injEq] at hr
    exact hr.symm

theorem submitXcmpProof_path_authentic_honest :
    ∃ l ∈ SoleProof.honest.commitment.leaves, SoleProof.honest.proof.stage1.2 = [BeefyMmrLeaf.codec.encode l] ∧
      SoleProof.honest.proof.stage2.leaf ∈ SoleProof.honest.commitment.heads l ∧
      SoleProof.honest.proof.stage3.leaf ∈ SoleProof.honest.commitment.channels SoleProof.honest.proof.stage2.leaf :=
  submitXcmpProof_path_authentic _ (.documented xcmrRoot) SoleProof.honest.commitment SoleProof.honest.seenStorage
    (.signed []) SoleProof.honest.proof (keccak.collisionFree_of_nodup (by decide +kernel))
    (by rintro ⟨l, -, h | ⟨a, -, h⟩⟩ <;> cases h) SoleProof.honest_accepted

/-! ### Messages -/

/-- Stage 4: a leaf of an accepted proof is one of the committed message leaves or the preimage of an inner node of
their range, unless it shares its position with another one or a committed leaf itself has the 64 bytes of an inner
node. -/
theorem submitXcmpProof_messages_authentic (env : Externals) (V : Recomputing env) (messages : List MmrLeaf)
    (hne : messages ≠ []) (s : Storage) (origin : Origin) (p : XcmpProof) (beefyRootTargeted : H256)
    (hcf : keccak.CollisionFree
      ((Mmr.tree keccak (messages.map MmrLeaf.codec.encode)).hashed keccak ++ (V.stage4Tree p).hashed keccak))
    (hsep : p.stage4.1.Separates p.stage4.2.length)
    (h64 : ∀ m ∈ messages, (MmrLeaf.codec.encode m).length ≠ 64)
    (hroot : p.stage3.leaf = Mmr.mmrRoot keccak (messages.map MmrLeaf.codec.encode))
    (h : submitXcmpProof env s origin p beefyRootTargeted = .ok ()) :
    ∀ b ∈ p.stage4.2, b ∈ messages.map MmrLeaf.codec.encode ∨
      b.length = 64 ∧ b ∈ (Mmr.tree keccak (messages.map MmrLeaf.codec.encode)).inner keccak := by
  obtain ⟨blob, leaf, rest, h⟩ := submitXcmpProof_eq_ok.1 h
  intro b hb
  have hacc := h.stage4
  rw [hroot] at hacc
  rcases Recomputing.mem_mmr_or (V := V) (q := (p.stage4.2, p.stage4.1)) (by simpa using hne) hsep hacc hcf hb with
    hm | hm | ⟨c, hc, hlen⟩
  · exact Or.inl hm
  · exact Or.inr ⟨HashTree.length_of_mem_inner hm, hm⟩
  · obtain ⟨m, hm, rfl⟩ := List.mem_map.1 hc
    exact absurd hlen (h64 m hm)

theorem submitXcmpProof_messages_authentic_honest :
    SoleProof.honest.proof.stage4.2.length = 1 ∧
      ∀ b ∈ SoleProof.honest.proof.stage4.2, b ∈ [firstMessage, secondMessage].map MmrLeaf.codec.encode ∨
        b.length = 64 ∧ b ∈ (Mmr.tree keccak ([firstMessage, secondMessage].map MmrLeaf.codec.encode)).inner keccak :=
  ⟨rfl, submitXcmpProof_messages_authentic _ (.documented xcmrRoot) [firstMessage, secondMessage] (by decide)
    SoleProof.honest.seenStorage (.signed []) SoleProof.honest.proof SoleProof.honest.beefyRoot
    (keccak.collisionFree_of_nodup (by decide +kernel)) (by decide) (by decide +kernel) rfl SoleProof.honest_accepted⟩

/-- All message leaves of an accepted proof are committed. -/
def MessagesCommitted (messages : List MmrLeaf) (s : Storage) (p : XcmpProof) (beefyRootTargeted : H256) : Prop :=
  keccak.CollisionFree ((Mmr.tree keccak (messages.map MmrLeaf.codec.encode)).hashed keccak ++
    ((Recomputing.documented xcmrRoot).stage4Tree p).hashed keccak) →
  p.stage3.leaf = Mmr.mmrRoot keccak (messages.map MmrLeaf.codec.encode) →
  submitXcmpProof (.documented xcmrRoot) s (.signed []) p beefyRootTargeted = .ok () →
  ∀ b ∈ p.stage4.2, b ∈ messages.map MmrLeaf.codec.encode

/-- A proof that presents the two children of an inner node of the range of three messages as its only message. -/
def innerNodeForgery : SoleProof where
  paraId := 1000
  channelRoot := Mmr.mmrRoot keccak ([firstMessage, secondMessage, thirdMessage].map MmrLeaf.codec.encode)
  messages := (⟨[1], 2, [keccak256 (MmrLeaf.codec.encode thirdMessage)]⟩,
    [keccak.pair (keccak256 (MmrLeaf.codec.encode firstMessage)) (keccak256 (MmrLeaf.codec.encode secondMessage))])

/-- A message leaf of 64 bytes whose last 32 bytes, the parent hash, are the hash of the string `[9]`. -/
def openableMessage : MmrLeaf := ⟨⟨List.replicate 26 1, by decide⟩, 0, (0, keccak256 [9])⟩

/-- A proof that opens that leaf as an inner node, with the string `[9]` below it. -/
def belowLeafForgery : SoleProof where
  paraId := 1000
  channelRoot := keccak256 (MmrLeaf.codec.encode openableMessage)
  messages := (⟨[1], 2, [⟨(MmrLeaf.codec.encode openableMessage).take 32, by decide +kernel⟩]⟩, [[9]])

/-- A proof with the string `[9]` at the position of the first message, behind that message. -/
def repeatedIndexForgery : SoleProof where
  paraId := 1000
  channelRoot := messagesRoot
  messages := (⟨[0, 0], 2, [keccak256 (MmrLeaf.codec.encode secondMessage)]⟩, [MmrLeaf.codec.encode firstMessage, [9]])

private theorem not_messagesCommitted {messages : List MmrLeaf} {q : SoleProof} {b : Bytes}
    (hcf : keccak.CollisionFree ((Mmr.tree keccak (messages.map MmrLeaf.codec.encode)).hashed keccak ++
      ((Recomputing.documented xcmrRoot).stage4Tree q.proof).hashed keccak))
    (hroot : q.channelRoot = Mmr.mmrRoot keccak (messages.map MmrLeaf.codec.encode))
    (hverify : Mmr.verifyLeavesProof keccak q.channelRoot q.messages.2 q.messages.1 = true) (hb : b ∈ q.messages.2)
    (hnot : b ∉ messages.map MmrLeaf.codec.encode) :
    ¬ MessagesCommitted messages q.seenStorage q.proof q.beefyRoot := by
  intro h
  exact hnot (h hcf hroot (q.accepted q.contains_seenStorage hverify []) b hb)

/-- A preimage of an inner node passes as a message, and so do a string below a committed leaf of 64 bytes and a string
at the position of another leaf. -/
theorem submitXcmpProof_messages_forged :
    ¬ MessagesCommitted [firstMessage, secondMessage, thirdMessage] innerNodeForgery.seenStorage innerNodeForgery.proof
        innerNodeForgery.beefyRoot ∧
      ¬ MessagesCommitted [openableMessage] belowLeafForgery.seenStorage belowLeafForgery.proof
        belowLeafForgery.beefyRoot ∧
      ¬ MessagesCommitted [firstMessage, secondMessage] repeatedIndexForgery.seenStorage repeatedIndexForgery.proof
        repeatedIndexForgery.beefyRoot := by
  refine ⟨?_, ?_, ?_⟩
  · exact not_messagesCommitted (keccak.collisionFree_of_nodup (by decide +kernel)) rfl (by decide +kernel)
      (List.mem_singleton.2 rfl) (by decide +kernel)
  · exact not_messagesCommitted (keccak.collisionFree_of_nodup (by decide +kernel)) rfl (by decide +kernel)
      (List.mem_singleton.2 rfl) (by decide +kernel)
  · exact not_messagesCommitted (b := [9]) (keccak.collisionFree_of_nodup (by decide +kernel)) rfl (by decide +kernel)
      (List.mem_cons_of_mem _ (List.mem_singleton.2 rfl)) (by decide +kernel)

/-! ### Heads chosen by a parachain -/

/-- The proof opens `leaf` at stage 1. -/
def XcmpProof.OpensLeaf (p : XcmpProof) (leaf : BeefyMmrLeaf) : Prop :=
  ∃ blob rest, p.stage1.2 = [blob] ∧ BeefyMmrLeaf.codec.decode blob = some (leaf, rest)

private theorem Accepted.leaf_eq {root : H256} {blob rest : Bytes} {leaf leaf' : BeefyMmrLeaf}
    (h : Accepted env s origin p root blob leaf rest) (h' : p.OpensLeaf leaf') : leaf' = leaf := by
  obtain ⟨blob', rest', hl, hd⟩ := h'
  have hb := h.leaves
  rw [hl, List.cons.injEq] at hb
  rw [hb.1, h.decodes, Option.some.injEq, Prod.mk.injEq] at hd
  exact hd.1.symm

/-- Stage 2 with arbitrary heads: the head of an accepted proof is committed when no committed head has 59 bytes. -/
theorem submitXcmpProof_head_committed (env : Externals) (hverify : env.verifyProof = BinaryMerkle.verifyProof keccak)
    (heads : List ParaLeaf) (leaf : BeefyMmrLeaf) (s : Storage) (origin : Origin) (p : XcmpProof)
    (beefyRootTargeted : H256)
    (hextra : leaf.leafExtra = BinaryMerkle.merkleRoot keccak (heads.map ParaLeaf.codec.encode))
    (hcf : keccak.CollisionFree ((BinaryMerkle.tree keccak (heads.map ParaLeaf.codec.encode)).hashed keccak ++
      (BinaryMerkle.checkedTree p.stage2Claim).hashed keccak))
    (hempty : heads = [] → ∀ x ∈ (BinaryMerkle.checkedTree p.stage2Claim).hashed keccak, keccak256 x ≠ H256.zero)
    (h59 : ∀ a ∈ heads, a.headData.1.length ≠ 59) (hopens : p.OpensLeaf leaf)
    (h : submitXcmpProof env s origin p beefyRootTargeted = .ok ()) : p.stage2.leaf ∈ heads := by
  obtain ⟨blob, leaf', rest, h⟩ := submitXcmpProof_eq_ok.1 h
  obtain rfl := h.leaf_eq hopens
  have hrec : Recomputes keccak (fun root q => env.verifyProof root q.proof q.numberOfLeaves q.leafIndex q.leaf)
      BinaryMerkle.checkedTree (fun q => [q.leaf]) := by
    rw [hverify]
    exact BinaryMerkle.verifyProof_recomputes keccak
  refine stage2_authentic hrec hextra hcf hempty (fun a ha h64 => h59 a ha ?_) h
  exact ParaLeaf.length_encode_eq_64.1 h64

theorem submitXcmpProof_head_committed_honest :
    SoleProof.honest.proof.stage2.leaf ∈ [SoleProof.honest.head] :=
  submitXcmpProof_head_committed (.documented xcmrRoot) rfl [SoleProof.honest.head] SoleProof.honest.leaf
    SoleProof.honest.seenStorage (.signed []) SoleProof.honest.proof SoleProof.honest.beefyRoot rfl
    (keccak.collisionFree_of_nodup (by decide +kernel)) (fun h => absurd h (by simp)) (by decide +kernel)
    ⟨BeefyMmrLeaf.codec.encode SoleProof.honest.leaf, [], rfl, by decide +kernel⟩ SoleProof.honest_accepted

/-- The head of an accepted proof is committed. -/
def HeadCommitted (heads : List ParaLeaf) (leaf : BeefyMmrLeaf) (s : Storage) (p : XcmpProof)
    (beefyRootTargeted : H256) : Prop :=
  leaf.leafExtra = BinaryMerkle.merkleRoot keccak (heads.map ParaLeaf.codec.encode) →
  keccak.CollisionFree ((BinaryMerkle.tree keccak (heads.map ParaLeaf.codec.encode)).hashed keccak ++
    (BinaryMerkle.checkedTree p.stage2Claim).hashed keccak) →
  p.OpensLeaf leaf →
  submitXcmpProof (.documented xcmrRoot) s (.signed []) p beefyRootTargeted = .ok () → p.stage2.leaf ∈ heads

/-- A head of 59 bytes that ends with the hash of a leaf of another parachain. -/
def hostileHead : ParaLeaf where
  paraId := 2000
  headData := ⟨List.replicate 27 0 ++ (keccak256 (ParaLeaf.codec.encode SoleProof.honest.head)).bytes, by
    rw [List.length_append, H256.length_bytes]; decide⟩

/-- The BEEFY leaf over the hostile head alone, in relay block `n`. -/
def hostileLeafAt (n : UInt32) : BeefyMmrLeaf :=
  ⟨0, (n - 1, H256.zero), ⟨0, 0, H256.zero⟩, keccak256 (ParaLeaf.codec.encode hostileHead)⟩

/-- The root of the range of two such leaves. -/
def hostileRoot : H256 :=
  Mmr.mmrRoot keccak [BeefyMmrLeaf.codec.encode (hostileLeafAt 1), BeefyMmrLeaf.codec.encode (hostileLeafAt 2)]

/-- A proof for the other parachain through the second leaf: the encoded hostile head is opened as an inner node. -/
def hostileProof : XcmpProof where
  stage1 := (⟨[1], 2, [keccak256 (BeefyMmrLeaf.codec.encode (hostileLeafAt 1))]⟩,
    [BeefyMmrLeaf.codec.encode (hostileLeafAt 2)])
  stage2 := ⟨(hostileLeafAt 2).leafExtra, [⟨(ParaLeaf.codec.encode hostileHead).take 32, by decide +kernel⟩], 2, 1,
    SoleProof.honest.head⟩
  stage3 := SoleProof.honest.proof.stage3
  stage4 := SoleProof.honest.proof.stage4

private theorem hostileProof_accepted :
    submitXcmpProof (.documented xcmrRoot) (onInitialize .genesis 1 (some hostileRoot)) (.signed []) hostileProof
      hostileRoot = .ok () := by
  have hdecode := BeefyMmrLeaf.codec.decode_encode (hostileLeafAt 2) []
  rw [List.append_nil] at hdecode
  refine submitXcmpProof_eq_ok.2 ⟨BeefyMmrLeaf.codec.encode (hostileLeafAt 2), hostileLeafAt 2, [], ?_⟩
  exact
    { signed := ⟨[], rfl⟩
      seen := by simp [onInitialize]
      stage1 := Mmr.verifyLeavesProof_second keccak (BeefyMmrLeaf.codec.encode (hostileLeafAt 1)) _
      leaves := rfl
      decodes := hdecode
      leafExtra := rfl
      count2 := show (2 : UInt64).toNat < 2 ^ 32 by decide
      index2 := show (1 : UInt64).toNat < 2 ^ 32 by decide
      stage2 := by decide +kernel
      extracted := SoleProof.honest.extract_head _ rfl
      count3 := show (1 : UInt64).toNat < 2 ^ 32 by decide
      index3 := show (0 : UInt64).toNat < 2 ^ 32 by decide
      stage3 := BinaryMerkle.verifyProof_sole keccak rfl
      stage4 := Mmr.verifyLeavesProof_second keccak (MmrLeaf.codec.encode firstMessage)
        (MmrLeaf.codec.encode secondMessage) }

/-- A parachain with a head of 59 bytes can stand in for another one that was never committed. -/
theorem submitXcmpProof_head_forged :
    ¬ HeadCommitted [hostileHead] (hostileLeafAt 2) (onInitialize .genesis 1 (some hostileRoot)) hostileProof
      hostileRoot := by
  intro h
  have hmem := h rfl (keccak.collisionFree_of_nodup (by decide +kernel))
    ⟨BeefyMmrLeaf.codec.encode (hostileLeafAt 2), [], rfl, by decide +kernel⟩ hostileProof_accepted
  exact absurd hmem (by decide +kernel)

end XcmpPrototype
