import XcmpPrototype.Acceptance
import XcmpPrototype.Completeness
import XcmpPrototype.Provenance
import XcmpPrototype.SenderChain

/-!
# From the sender's runtime to the receiver's pallet

The nodes of the two chains are honest in the sense of `HonestNodes` because they answer through the runtime interface
at the state of a block: the sender's node with its mountain range of messages and the tree over its channel roots, the
relay node with the BEEFY range and the tree over the heads.  So the whole way can be followed (`relayed_accepted_iff`):
what is submitted is accepted as soon as the receiver knows the root, and its messages are the pages that the sender had
queued for the first channel at one of its blocks.
-/

open Scale

namespace XcmpPrototype

/-! ### Generators at the state of a block -/

/-- A proof that is generated for one block is for the leaf of that block, and passes the check against the root of the
same state. -/
def Crates.MmrSound (C : Crates) {α : Type} (encode : α → Bytes) (m : MmrState α) : Prop :=
  ∀ n leaves q, C.generateProof encode m [n] none = .ok (leaves, q) →
    (∃ l, m.leafAt n = some l ∧ leaves = [l]) ∧
      C.verifyLeavesProof (C.mmrRoot encode m) (leaves.map encode) q = true

/-- The states of the chains at their blocks: the BEEFY range and the heads of the relay chain, and the sender, which
got to its state by a run. -/
structure Chains (env : Externals) (hashOf : Bytes → H256) where
  relayAt : H256 → MmrState BeefyMmrLeaf
  headsAt : H256 → List ParaLeaf
  senderAt : H256 → SenderState
  reachable : ∀ b, Reachable (senderStep env hashOf) .genesis (senderAt b)
  numbered : ∀ b, (senderAt b).blocks.length < 2 ^ 32

namespace Chains

variable (C : Crates) {hashOf : Bytes → H256} (ch : Chains C.toExternals hashOf)

def mmrRootAt (b : H256) : H256 := C.mmrRoot BeefyMmrLeaf.codec.encode (ch.relayAt b)

def msgRootAt (b : H256) : H256 := mmrParaARoot C (ch.senderAt b).runtime

/-- The generators of the other crates agree with their checks in all these states. -/
structure Agree : Prop where
  beefy : ∀ b, C.MmrSound BeefyMmrLeaf.codec.encode (ch.relayAt b)
  heads : ∀ b i, C.MerkleAgrees ParaLeaf.codec.encode (ch.headsAt b) i
  count : ∀ b, (ch.headsAt b).length < 2 ^ 32
  channels : ∀ b, C.MerkleAgrees H256.bytes
    [mmrParaARoot C (ch.senderAt b).runtime, mmrParaBRoot C (ch.senderAt b).runtime] 0
  messages : ∀ b, C.MmrSound MmrLeaf.codec.encode (ch.senderAt b).runtime.mmrParaA

end Chains

namespace Relayer

variable {C : Crates} {hashOf : Bytes → H256} {ch : Chains C.toExternals hashOf}

/-! ### Nodes on these chains -/

/-- The encoded form in which a node hands out leaves and their proof. -/
def Carries (p : LeavesProof) (leaves : List EncodableOpaqueLeaf) (q : MmrProof) : Prop :=
  decodeLeaves p.leaves = some leaves ∧ decodeProof p.proof = some q

/-- The answers of the relay node, at the given block or else at its best block. -/
def RelayNode (C : Crates) (ch : Chains C.toExternals hashOf) (best : H256) : (r : Request) → r.Result → Prop
  | .mmrRoot block _, a => ∀ root, a = some root → root = ch.mmrRootAt C (block.getD best)
  | .generateProof n block _, a => ∀ p, a = some p → p.blockHash = block.getD best ∧
      ∃ leaves q, C.generateProof BeefyMmrLeaf.codec.encode (ch.relayAt (block.getD best)) [n.toUInt32] none =
        .ok (leaves, q) ∧ Carries p (leaves.map BeefyMmrLeaf.codec.encode) q
  | .getParaHeadsProof block _, a => ∀ p, a = some p → ∃ i hi, p = paraMerkleProof C (ch.headsAt block) i hi
  | _, _ => True

/-- The answers of the sender's node, through the runtime interface at the given block. -/
def SenderNode (C : Crates) (ch : Chains C.toExternals hashOf) : (r : Request) → r.Result → Prop
  | .mmrRoot (some block) (some mmrId), a => ∀ root, a = some root →
      mmrRootApi C (ch.senderAt block).runtime mmrId = .ok root
  | .generateProof n (some block) (some mmrId), a => ∀ p, a = some p →
      ∃ leaves q, generateProofApi C (ch.senderAt block).runtime [n.toUInt32] none mmrId = .ok (leaves, q) ∧
        Carries p leaves q
  | .getXcmpChannelsProof block channelId, a => a = getXcmpChannelsProof C (ch.senderAt block).runtime channelId
  | _, _ => True

/-- Requests of both collectors that do not fail are answered from the states of the chains. -/
def ChainAnswers (C : Crates) (ch : Chains C.toExternals hashOf) (s : State) : Event → Prop
  | .answer .relay (.request r) a => ∀ x, a = some x → RelayNode C ch s.shared.relayBest r x
  | .answer .para (.request r) a => ∀ x, a = some x → SenderNode C ch r x
  | _ => True

/-! ### Such nodes are honest -/

private theorem headVerifies_paraMerkleProof {heads : List ParaLeaf} {i : UInt32} (hi : i.toNat < heads.length)
    (hcount : heads.length < 2 ^ 32) (h : C.MerkleAgrees ParaLeaf.codec.encode heads i) :
    HeadVerifies C.toExternals (paraMerkleProof C heads i hi) := by
  obtain ⟨hroot, hleaf, hverify⟩ := h hi hcount
  refine ⟨(toUInt64_toUInt32 _).1, (toUInt64_toUInt32 _).1, ?_⟩
  simp only [paraMerkleProof, (toUInt64_toUInt32 _).2, hroot, hleaf]
  exact hverify

/-- The proof of one leaf in encoded form. -/
private theorem MmrSound.carries {α : Type} {encode : α → Bytes} {m : MmrState α} (h : C.MmrSound encode m)
    {n : UInt32} {leaves : List α} {q : MmrProof} (hq : C.generateProof encode m [n] none = .ok (leaves, q))
    {p : LeavesProof} (hp : Carries p (leaves.map encode) q) :
    SingleLeaf p ∧ Verifies C.toExternals p (C.mmrRoot encode m) := by
  obtain ⟨⟨l, -, rfl⟩, hverify⟩ := h n leaves q hq
  refine ⟨?_, _, _, hp.1, hp.2, hverify⟩
  intro leaves hleaves
  rw [hp.1, Option.some.injEq] at hleaves
  rw [← hleaves]
  simp

private theorem relayNode_honest (hC : ch.Agree C) {best : H256} {r : Request} {x : r.Result}
    (h : RelayNode C ch best r x) :
    AnswersFrom C.toExternals (ch.mmrRootAt C) best r x ∧ RelayPieces C.toExternals r x := by
  cases r with
  | mmrRoot block mmrId => exact ⟨h, trivial⟩
  | generateProof n block mmrId =>
    refine ⟨fun p hp => ?_, fun p hp => ?_⟩
    · obtain ⟨hblock, leaves, q, hq, hcarries⟩ := h p hp
      exact ⟨hblock, (MmrSound.carries (hC.beefy _) hq hcarries).2⟩
    · obtain ⟨-, leaves, q, hq, hcarries⟩ := h p hp
      exact (MmrSound.carries (hC.beefy _) hq hcarries).1
  | getParaHeadsProof block id =>
    refine ⟨trivial, fun p hp => ?_⟩
    obtain ⟨i, hi, rfl⟩ := h p hp
    exact headVerifies_paraMerkleProof hi (hC.count block) (hC.heads block i)
  | _ => exact ⟨trivial, trivial⟩

/-- A generated proof of messages comes from the range of the first channel. -/
private theorem generateProofApi_receiver {st : RuntimeState} {ns : List UInt32} {leaves : List EncodableOpaqueLeaf}
    {q : MmrProof} (h : generateProofApi C st ns none receiverChannelId = .ok (leaves, q)) :
    ∃ ls, C.generateProof MmrLeaf.codec.encode st.mmrParaA ns none = .ok (ls, q) ∧
      leaves = ls.map MmrLeaf.codec.encode := by
  simp only [generateProofApi, receiverChannelId] at h
  cases hgen : C.generateProof MmrLeaf.codec.encode st.mmrParaA ns none with
  | error e =>
    rw [hgen] at h
    cases h
  | ok r =>
    rw [hgen] at h
    cases h
    exact ⟨r.1, rfl, rfl⟩

private theorem senderNode_honest (hC : ch.Agree C) {r : Request} {x : r.Result} (h : SenderNode C ch r x) :
    ParaPieces C.toExternals (ch.msgRootAt C) r x := by
  cases r with
  | mmrRoot block mmrId =>
    cases block with
    | none => trivial
    | some block =>
      rintro rfl root hroot
      exact (Except.ok.inj (h root hroot)).symm
  | generateProof n block mmrId =>
    cases block with
    | none => trivial
    | some block =>
      rintro rfl p hp
      obtain ⟨leaves, q, hq, hcarries⟩ := h p hp
      obtain ⟨ls, hls, rfl⟩ := generateProofApi_receiver hq
      exact (MmrSound.carries (hC.messages block) hls hcarries).2
  | getXcmpChannelsProof block channelId =>
    rintro - p rfl
    obtain ⟨p', hp', -, hleaf, hcount, hindex, hverify⟩ := genMerkleProof_agrees (hC.channels block) channelId
    obtain rfl : p = p' := Option.some.inj (h.trans hp')
    exact ⟨⟨hcount, hindex, hverify⟩, hleaf⟩
  | _ => trivial

theorem ChainAnswers.honest (hC : ch.Agree C) {s : State} {e : Event} (h : ChainAnswers C ch s e) :
    HonestNodes C.toExternals (ch.mmrRootAt C) (ch.msgRootAt C) s e := by
  unfold HonestNodes
  split
  · exact fun x hx => relayNode_honest hC (h x hx)
  · exact fun x hx => senderNode_honest hC (h x hx)
  · trivial

/-! ### The whole way -/

/-- All recorded answers of the sender's node come from the states of the sender. -/
private theorem senderNode_of_mem_record {C' : State → Event → Prop}
    (hC' : ∀ s e, C' s e → ChainAnswers C ch s e) {best : H256} {s : State}
    (h : Reaches (machine C.toExternals).step C' (boot best) s) {r : Request} {x : r.Result}
    (hx : ⟨.request r, some x⟩ ∈ s.record .para) : SenderNode C ch r x := by
  have hall := Machine.forall_mem_record
    (P := fun i q a => i = .para → ∀ (r : Request) (x : r.Result), (⟨q, a⟩ : Sigma Answer) = ⟨.request r, some x⟩ →
      SenderNode C ch r x) ?_ h .para _ hx rfl r x rfl
  · exact hall
  · rintro s i q a hc rfl r x heq
    cases heq
    exact hC' s _ hc x rfl

/-- The messages of a submitted proof are a leaf of the sender. -/
theorem messages_of_submitting (hC : ch.Agree C) {C' : State → Event → Prop}
    (hC' : ∀ s e, C' s e → ChainAnswers C ch s e) {best : H256} {s : State}
    (h : Reaches (machine C.toExternals).step C' (boot best) s) {p : XcmpProof} {root : H256}
    (hp : submitting s = some (p, root)) :
    ∃ (b : Block) (x : SenderBlock) (l : MmrLeaf),
      (ch.senderAt b.hash).blocks[b.number.toNat - 1]? = some x ∧ Channel.paraA.LeafMadeAt b.number x l ∧
        p.stage4.2 = [MmrLeaf.codec.encode l] := by
  have hreach : Reachable (machine C.toExternals).step (boot best) s := h.mono fun _ _ _ => trivial
  obtain ⟨hist, hmem, k, v, es, v1, hl⟩ := lookedUp_of_submitting hreach hp
  obtain ⟨turn, hturn, b, -, hproof⟩ := (Reachable.fromNodes hreach).reads hist hmem _ hl.stage4 k v rfl
  obtain ⟨leaves, q, hq, hcarries⟩ := senderNode_of_mem_record hC' h (List.mem_flatten_of_mem hturn hproof) v rfl
  obtain ⟨ls, hls, rfl⟩ := generateProofApi_receiver hq
  obtain ⟨⟨l, hleaf, rfl⟩, -⟩ := hC.messages b.hash _ ls q hls
  rw [(toUInt64_toUInt32 b.number).2] at hleaf
  have hsender : Recorded (ch.senderAt b.hash) := Reachable.recorded (ch.reachable b.hash)
  obtain ⟨x, hx, hmade⟩ := hsender.leafMadeAt (ch.numbered b.hash) .paraA hleaf
  refine ⟨b, x, l, hx, hmade, ?_⟩
  have hdecoded := hcarries.1.symm.trans hl.messages.1
  exact (Option.some.inj hdecoded).symm

/-- In every interleaving, with nodes that answer from the states of their chains and while the relay collector keeps up
with its node: the one message leaf of a proof that the relayer is about to submit is made of the pages that the sender
had queued for the first channel at one of its blocks; and after every run of the receiving instance the proof is
accepted from a signed origin exactly if some block of the receiver has noted its root. -/
theorem relayed_accepted_iff (C : Crates) (hashOf : Bytes → H256) (ch : Chains C.toExternals hashOf)
    (hC : ch.Agree C) (best : H256) (s : State)
    (h : Reaches (machine C.toExternals).step
      (fun s e => ChainAnswers C ch s e ∧ InSync (ch.mmrRootAt C) s e) (boot best) s)
    (p : XcmpProof) (root : H256) (hp : submitting s = some (p, root)) :
    (∃ (b : Block) (x : SenderBlock) (l : MmrLeaf),
      (ch.senderAt b.hash).blocks[b.number.toNat - 1]? = some x ∧ Channel.paraA.LeafMadeAt b.number x l ∧
        p.stage4.2 = [MmrLeaf.codec.encode l]) ∧
    ∀ (cfg : Config) (es : List PalletEvent) (who : Bytes),
      XcmpPrototype.submitXcmpProof C.toExternals (palletRun C.toExternals hashOf cfg es) (.signed who) p root =
          .ok () ↔ ∃ b ∈ blocks es, b.root = root := by
  refine ⟨messages_of_submitting hC (fun _ _ hc => hc.1) h hp, fun cfg es who => ?_⟩
  have hrun : Reaches (machine C.toExternals).step
      (HonestRun C.toExternals (ch.mmrRootAt C) (ch.msgRootAt C) True) (boot best) s :=
    h.mono fun _ _ hc => ⟨hc.1.honest hC, fun _ => hc.2⟩
  exact accepted_iff_of_submitting hrun hp hashOf cfg es who

/-! ### Chains with two blocks -/

private theorem documented_mmrSound {α : Type} (encode : α → Bytes) {m : MmrState α} (htwo : 2 ≤ m.leaves.length)
    (hlen : m.leaves.length < 2 ^ 63) : Crates.documented.MmrSound encode m := by
  intro n leaves q h
  have hleaves : [n].mapM m.leafAt = some leaves := by
    simp only [Crates.documented, MmrState.generateProof] at h
    split at h
    · rename_i hls
      split at h
      · cases h
      · cases h
        exact hls
    · cases h
  obtain ⟨q', hq', hverify⟩ :=
    Crates.documented_mmrAgrees encode htwo hlen [n] none leaves (by simp) (by simp) hleaves rfl
  cases h.symm.trans hq'
  refine ⟨?_, hverify⟩
  cases hl : m.leafAt n with
  | none => simp [hl] at hleaves
  | some l => exact ⟨l, rfl, by simpa [hl] using hleaves.symm⟩

/-- The proof of the second of two leaves is the hash of the first. -/
private theorem generateProof_second {α : Type} (encode : α → Bytes) (a b : α) :
    Crates.documented.generateProof encode ⟨[a, b], 2⟩ [2] none =
      .ok ([b], ⟨[1], 2, [keccak256 (encode a)]⟩) := by
  have hitems : Mmr.items keccak ([a, b].map encode) [1] = [keccak.hash (encode a)] := by
    have hheights : Mmr.peakHeights 2 = [1] := by decide
    simp [Mmr.items, hheights, Mmr.partItems, Mmr.peakItems, Mmr.rowItems, BinaryMerkle.sibling, HashTree.root]
  have h := generateProof_eq encode (m := ⟨[a, b], 2⟩) (by simp) (by simp) (show [2].mapM _ = some [1] from rfl)
    (by simp) (show [2].mapM _ = some [b] from rfl) (show (none : Option UInt32).getD 2 = 2 from rfl)
  rw [hitems] at h
  exact h

/-- The sender has queued a page and made two blocks. -/
def sentOnce : SenderState :=
  (run (senderStep (.documented xcmrRoot) keccak256) .genesis
    [.queue (.sendPage 1 [7]), .block none H256.zero, .block none H256.zero]).getD .genesis

/-- The message leaf of block `n`; the page is in both of them. -/
def sentLeafAt (n : UInt32) : MmrLeaf := ⟨⟨[1, 2, 3, 7], by decide⟩, 0, (n - 1, H256.zero)⟩

theorem reachable_sentOnce : Reachable (senderStep Crates.documented.toExternals keccak256) .genesis sentOnce :=
  reaches_of_run [.queue (.sendPage 1 [7]), .block none H256.zero, .block none H256.zero] rfl

theorem numbered_sentOnce : sentOnce.blocks.length < 2 ^ 32 := by decide +kernel

theorem sentOnce_mmrParaA : sentOnce.runtime.mmrParaA = ⟨[sentLeafAt 1, sentLeafAt 2], 2⟩ := rfl

/-- Head data of one byte. -/
def byteData (b : UInt8) : Vec UInt8 := ⟨[b], Nat.one_lt_two_pow (by decide)⟩

def sentHeads : List ParaLeaf :=
  [⟨1, byteData 5⟩, headWith 1000 (collectRoots .documented sentOnce.runtime), ⟨2000, byteData 6⟩]

/-- The BEEFY leaf of relay block `n`. -/
def sentRelayLeafAt (n : UInt32) : BeefyMmrLeaf :=
  ⟨0, (n - 1, H256.zero), ⟨0, 0, H256.zero⟩, Crates.documented.merkleRoot (sentHeads.map ParaLeaf.codec.encode)⟩

/-- Both chains have two blocks. -/
def sentChains : Chains Crates.documented.toExternals keccak256 where
  relayAt _ := ⟨[sentRelayLeafAt 1, sentRelayLeafAt 2], 2⟩
  headsAt _ := sentHeads
  senderAt _ := sentOnce
  reachable _ := reachable_sentOnce
  numbered _ := numbered_sentOnce

theorem agree_sentChains : sentChains.Agree .documented where
  beefy _ := documented_mmrSound _ (Nat.le_refl 2) (show 2 < 2 ^ 63 by decide)
  heads _ _ := Crates.documented_merkleAgrees _ _ _
  count _ := show sentHeads.length < 2 ^ 32 by decide
  channels _ := Crates.documented_merkleAgrees _ _ _
  messages _ := by
    rw [show (sentChains.senderAt _).runtime.mmrParaA = _ from sentOnce_mmrParaA]
    exact documented_mmrSound _ (Nat.le_refl 2) (show 2 < 2 ^ 63 by decide)

def sentPieces : Pieces where
  beefyRoot := sentChains.mmrRootAt .documented H256.zero
  firstBeefyLeaf := ⟨BeefyMmrLeaf.codec.encode (sentRelayLeafAt 1), by rw [BeefyMmrLeaf.length_encode]; decide⟩
  beefyLeaf := ⟨BeefyMmrLeaf.codec.encode (sentRelayLeafAt 2), by rw [BeefyMmrLeaf.length_encode]; decide⟩
  head := paraMerkleProof .documented sentHeads 1 (by decide)
  msgRoot := mmrParaARoot .documented sentOnce.runtime
  firstMessage := ⟨MmrLeaf.codec.encode (sentLeafAt 1), by decide +kernel⟩
  message := ⟨MmrLeaf.codec.encode (sentLeafAt 2), by decide +kernel⟩
  channel := (getXcmpChannelsProof .documented sentOnce.runtime 0).getD ⟨H256.zero, [], 0, 0, H256.zero⟩

theorem chainAnswers_relayNode (s : State) (q : Query) :
    ChainAnswers .documented sentChains s (.answer .relay q (freeReply sentPieces.relayNode s.shared q).1) := by
  cases q with
  | tryLock x => trivial
  | request r =>
    intro x hx
    cases r with
    | mmrRoot block mmrId =>
      cases hx
      exact fun root hroot => (Option.some.inj hroot).symm
    | generateProof n block mmrId =>
      cases hx
      intro p hp
      obtain ⟨hn, hp⟩ := Option.ite_none_right_eq_some.1 hp
      cases hp
      subst hn
      exact ⟨rfl, [sentRelayLeafAt 2], _, generateProof_second _ _ _, decode_leafProof _ _ _ _⟩
    | getParaHeadsProof block id =>
      cases hx
      intro p hp
      cases hp
      exact ⟨1, show 1 < sentHeads.length by decide, rfl⟩
    | _ => trivial

private theorem generateProofApi_sentOnce :
    generateProofApi .documented sentOnce.runtime [(2 : UInt64).toUInt32] none receiverChannelId =
      .ok ([MmrLeaf.codec.encode (sentLeafAt 2)], ⟨[1], 2, [keccak256 (MmrLeaf.codec.encode (sentLeafAt 1))]⟩) := by
  have h := generateProof_second MmrLeaf.codec.encode (sentLeafAt 1) (sentLeafAt 2)
  rw [← sentOnce_mmrParaA] at h
  show (Crates.documented.generateProof MmrLeaf.codec.encode sentOnce.runtime.mmrParaA [2] none).map
    (fun r => (r.1.map MmrLeaf.codec.encode, r.2)) = _
  rw [h]
  rfl

theorem chainAnswers_paraNode (s : State) (q : Query) :
    ChainAnswers .documented sentChains s (.answer .para q (freeReply sentPieces.paraNode s.shared q).1) := by
  cases q with
  | tryLock x => trivial
  | request r =>
    intro x hx
    cases r with
    | mmrRoot block mmrId =>
      cases hx
      cases block with
      | none => trivial
      | some block =>
        cases mmrId with
        | none => trivial
        | some mmrId =>
          intro root hroot
          obtain ⟨hid, hroot⟩ := Option.ite_none_right_eq_some.1 hroot
          cases hroot
          obtain rfl := Option.some.inj hid
          rfl
    | generateProof n block mmrId =>
      cases hx
      cases block with
      | none => trivial
      | some block =>
        cases mmrId with
        | none => trivial
        | some mmrId =>
          intro p hp
          rw [if_neg fun hnone => Option.some_ne_none _ hnone.1] at hp
          obtain ⟨⟨hn, hid⟩, heq⟩ := Option.ite_none_right_eq_some.1 hp
          cases heq
          subst hn
          obtain rfl := Option.some.inj hid
          exact ⟨_, _, generateProofApi_sentOnce, decode_leafProof _ _ _ _⟩
    | getXcmpChannelsProof block channelId =>
      cases hx
      rfl
    | _ => trivial

theorem relayed_accepted_iff_sentOnce :
    ∃ p root, submitting sentPieces.assembled = some (p, root) ∧
      ∀ (cfg : Config) (es : List PalletEvent) (who : Bytes),
        XcmpPrototype.submitXcmpProof (.documented xcmrRoot) (palletRun (.documented xcmrRoot) keccak256 cfg es)
          (.signed who) p root = .ok () ↔ ∃ b ∈ blocks es, b.root = root := by
  have hsome : (submitting sentPieces.assembled).isSome = true := by decide +kernel
  obtain ⟨⟨p, root⟩, hp⟩ := Option.isSome_iff_exists.1 hsome
  refine ⟨p, root, hp, (relayed_accepted_iff .documented keccak256 sentChains agree_sentChains H256.zero
    sentPieces.assembled ?_ p root hp).2⟩
  have hsync : ∀ s e, InSync (sentChains.mmrRootAt .documented) s e := by
    intro s e
    unfold InSync
    split
    · intros
      rfl
    · trivial
  exact sentPieces.reaches_assembled (fun _ _ _ => ⟨trivial, hsync _ _⟩)
    (fun s q => ⟨chainAnswers_relayNode s q, hsync _ _⟩) (fun s q => ⟨chainAnswers_paraNode s q, hsync _ _⟩)
    (fun _ _ _ => ⟨trivial, hsync _ _⟩) fun _ _ => ⟨trivial, hsync _ _⟩

end Relayer

end XcmpPrototype
