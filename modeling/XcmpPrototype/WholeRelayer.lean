import XcmpPrototype.Loops
import XcmpPrototype.RelayedProofs

/-!
# The whole relayer between two chains

The loops of the relayer, with nodes that answer the collectors from the states of their chains.  Through the machine of
single turns every proof that the loops are about to submit is followed back to the sender and forward to the receiver
(`loops_verdict`): its one message leaf is made of the pages that the sender had queued for the first channel at one of
its blocks, and after every run of the receiving instance at most two checks can reject it: the root is unknown, or the
relay node had moved on between the request of the root and that of the leaf.
-/

open Scale

namespace XcmpPrototype.Relayer

variable {C : Crates} {hashOf : Bytes → H256} {ch : Chains C.toExternals hashOf}

/-- Requests inside the turns of both collectors that do not fail are answered from the states of the chains.  Blocks
and everything that the third loop asks may be answered in any way. -/
def LoopChainAnswers (C : Crates) (ch : Chains C.toExternals hashOf) (s : LoopState) : LoopEvent → Prop
  | .answer .relay (.inl (.request r)) a => ∀ x, a = some x → RelayNode C ch s.shared.relayBest r x
  | .answer .para (.inl (.request r)) a => ∀ x, a = some x → SenderNode C ch r x
  | _ => True

private theorem lifts_chainAnswers {s : LoopState} {e : LoopEvent} (h : LoopChainAnswers C ch s e) :
    Machine.Lifts (machine C.toExternals) (ChainAnswers C ch) s e := by
  unfold Machine.Lifts
  split
  · rename_i i q a
    intro t hsim
    unfold ChainAnswers
    split
    · rename_i r a' heq
      cases heq
      rw [hsim.shared]
      exact h
    · rename_i r a' heq
      cases heq
      exact h
    · trivial
  · exact fun _ _ => trivial
  · trivial

/-- In every run of the loops with nodes that answer from the states of their chains: the one message leaf of a proof
that is about to be submitted is made of the pages that the sender had queued for the first channel at one of its
blocks, its BEEFY leaf is in the range of some relay block, and the receiver's answer is known. -/
theorem loops_verdict (C : Crates) (hashOf : Bytes → H256) (ch : Chains C.toExternals hashOf) (hC : ch.Agree C)
    (best : H256) (s : LoopState) (h : Reaches (loops C.toExternals).step (LoopChainAnswers C ch) (loopBoot best) s)
    (p : XcmpProof) (root : H256) (hp : loopSubmitting s = some (p, root)) :
    (∃ (b : Block) (x : SenderBlock) (l : MmrLeaf),
      (ch.senderAt b.hash).blocks[b.number.toNat - 1]? = some x ∧ Channel.paraA.LeafMadeAt b.number x l ∧
        p.stage4.2 = [MmrLeaf.codec.encode l]) ∧
    (∃ block, C.verifyLeavesProof (ch.mmrRootAt C block) p.stage1.2 p.stage1.1 = true) ∧
    ∀ (cfg : Config) (es : List PalletEvent) (who : Bytes),
      XcmpPrototype.submitXcmpProof C.toExternals (palletRun C.toExternals hashOf cfg es) (.signed who) p root =
        if (blocks es).all (fun b => b.root ≠ root) then .error (.error .xcmpBeefyRootTargetedNeverSeen)
        else if C.verifyLeavesProof root p.stage1.2 p.stage1.1 = false then
          .error (.error .xcmpStage1ProofDoesntVerify)
        else .ok () := by
  obtain ⟨t, hreach, -, hsubmit⟩ := exists_submitting (fun _ _ _ => trivial) (fun _ _ => trivial)
    (h.mono fun _ _ hc => lifts_chainAnswers hc)
  have hsubmitting := hsubmit p root hp
  have hrun : Reaches (machine C.toExternals).step
      (HonestRun C.toExternals (ch.mmrRootAt C) (ch.msgRootAt C) False) (boot best) t :=
    hreach.mono fun _ _ hc => ⟨hc.honest hC, False.elim⟩
  obtain ⟨hstages, hlink⟩ := stagesVerify_of_submitting hrun hsubmitting
  obtain ⟨block, hblock, -⟩ := hstages.stage1
  refine ⟨messages_of_submitting hC (fun _ _ hc => hc) hreach hsubmitting, ⟨block, hblock⟩, fun cfg es who => ?_⟩
  have hseen : ((palletRun C.toExternals hashOf cfg es).seenBeefyRoots.contains root = false) ↔
      (blocks es).all (fun b => b.root ≠ root) = true := by
    rw [← Bool.not_eq_true, (seen_palletRun C.toExternals hashOf cfg es).contains_iff, List.all_eq_true]
    simp
  rw [hstages.verdict hlink]
  simp only [hseen]

/-- The loops of a relayer between the chains of `sentChains`. -/
def sentLoops : LoopState :=
  loopAssembled sentPieces.relayNode sentPieces.paraNode ⟨.repeatByte 0x10, 2⟩ ⟨.repeatByte 0x20, 2⟩

private theorem reaches_sentLoops :
    Reaches (loops (.documented xcmrRoot)).step (LoopChainAnswers .documented sentChains) (loopBoot H256.zero)
      sentLoops := by
  refine reaches_loopAssembled (fun _ _ _ => trivial) (fun s q => ?_) (fun s q => ?_) (fun _ _ => trivial)
    fun _ _ _ => trivial
  · cases q with
    | inr r => trivial
    | inl q =>
      cases q with
      | tryLock x => trivial
      | request r => exact chainAnswers_relayNode (.init s.shared) (.request r)
  · cases q with
    | inr r => trivial
    | inl q =>
      cases q with
      | tryLock x => trivial
      | request r => exact chainAnswers_paraNode (.init s.shared) (.request r)

theorem loops_verdict_sent :
    ∃ p root, loopSubmitting sentLoops = some (p, root) ∧
      ∃ (b : Block) (x : SenderBlock) (l : MmrLeaf),
        (sentChains.senderAt b.hash).blocks[b.number.toNat - 1]? = some x ∧ Channel.paraA.LeafMadeAt b.number x l ∧
          p.stage4.2 = [MmrLeaf.codec.encode l] := by
  have hsome : (loopSubmitting sentLoops).isSome = true := by decide +kernel
  obtain ⟨⟨p, root⟩, hp⟩ := Option.isSome_iff_exists.1 hsome
  exact ⟨p, root, hp, (loops_verdict .documented keccak256 sentChains agree_sentChains H256.zero sentLoops
    reaches_sentLoops p root hp).1⟩

end XcmpPrototype.Relayer
