import XcmpPrototype.Runtime
import XcmpPrototype.Runs
import XcmpPrototype.SoleProof

/-!
# The two channels of the runtime

Blocks of the runtime: at the start of a block both instances of the message stuffer note the same BEEFY root and both
mountain ranges grow by one leaf; then calls reach either instance.  `ParaIdentifier` decides whose messages go into a
leaf, and nothing else.  A proof is accepted by both instances or by none, whatever parachain it comes from.
-/

open Scale

namespace XcmpPrototype

/-! ### Blocks -/

def MmrState.push {α : Type} (m : MmrState α) (leaf : α) (n : UInt32) : MmrState α := ⟨m.leaves ++ [leaf], n⟩

/-- What a block reads at its start: its number, the answer of `ParachainSystem::get_root`, the number and hash of its
parent, and the outbound messages for each parachain. -/
structure BlockStart where
  number : UInt32
  getRoot : Option H256
  parent : UInt32 × H256
  messages : ParaId → Vec UInt8

/-- The hooks of a block, in the order of the pallets: both message stuffers, then both mountain ranges. -/
def initializeBlock (hashOf : Bytes → H256) (st : RuntimeState) (b : BlockStart) : RuntimeState :=
  let a := onInitialize st.msgStufferParaA.storage b.number b.getRoot
  let c := onInitialize st.msgStufferParaB.storage b.number b.getRoot
  let leafA := leafData st.msgStufferParaA.config hashOf a b.parent fun _ => b.messages
  let leafB := leafData st.msgStufferParaB.config hashOf c b.parent fun _ => b.messages
  { mmrParaA := st.mmrParaA.push leafA.2 b.number
    mmrParaB := st.mmrParaB.push leafB.2 b.number
    msgStufferParaA := { st.msgStufferParaA with storage := leafA.1 }
    msgStufferParaB := { st.msgStufferParaB with storage := leafB.1 } }

inductive RuntimeEvent where
  | block (b : BlockStart)
  | callParaA (origin : Origin) (call : Call)
  | callParaB (origin : Origin) (call : Call)

def runtimeStep (env : Externals) (hashOf : Bytes → H256) (st : RuntimeState) : RuntimeEvent → Option RuntimeState
  | .block b => some (initializeBlock hashOf st b)
  | .callParaA origin call => some { st with msgStufferParaA := { st.msgStufferParaA with
      storage := (dispatch env st.msgStufferParaA.storage origin call).1 } }
  | .callParaB origin call => some { st with msgStufferParaB := { st.msgStufferParaB with
      storage := (dispatch env st.msgStufferParaB.storage origin call).1 } }

variable {env : Externals} {hashOf : Bytes → H256} {st : RuntimeState}

/-! ### Both instances know the same roots -/

/-- The configuration of the instances and what they have in common. -/
structure Twins (st : RuntimeState) : Prop where
  configA : st.msgStufferParaA.config = configParaA
  configB : st.msgStufferParaB.config = configParaB
  roots : st.msgStufferParaA.storage.seenBeefyRoots = st.msgStufferParaB.storage.seenBeefyRoots

private theorem Twins.step {e : RuntimeEvent} {st' : RuntimeState} (h : Twins st)
    (hs : runtimeStep env hashOf st e = some st') : Twins st' := by
  cases e with
  | block b =>
    cases hs
    refine ⟨h.configA, h.configB, ?_⟩
    simp only [initializeBlock, leafData, onInitialize, h.roots]
  | callParaA origin call =>
    cases hs
    refine ⟨h.configA, h.configB, ?_⟩
    rw [(dispatch_seenBeefyRoots env _ origin call).1]
    exact h.roots
  | callParaB origin call =>
    cases hs
    refine ⟨h.configA, h.configB, ?_⟩
    rw [(dispatch_seenBeefyRoots env _ origin call).1]
    exact h.roots

theorem Reachable.twins (h : Reachable (runtimeStep env hashOf) .genesis st) : Twins st :=
  h.invariant ⟨rfl, rfl, rfl⟩ fun _ _ _ ih _ hs => ih.step hs

/-- In every reachable state both instances give the same answer to every proof, although their identifiers differ. -/
theorem submitXcmpProof_instances (env : Externals) (hashOf : Bytes → H256) (st : RuntimeState)
    (h : Reachable (runtimeStep env hashOf) .genesis st) (origin : Origin) (p : XcmpProof) (beefyRootTargeted : H256) :
    st.msgStufferParaA.config.paraIdentifier ≠ st.msgStufferParaB.config.paraIdentifier ∧
      submitXcmpProof env st.msgStufferParaA.storage origin p beefyRootTargeted =
        submitXcmpProof env st.msgStufferParaB.storage origin p beefyRootTargeted := by
  have ht := Reachable.twins h
  refine ⟨?_, submitXcmpProof_congr env origin p ?_⟩
  · rw [ht.configA, ht.configB]
    decide
  · rw [ht.roots]

/-! ### Senders -/

/-- The honest smallest proof, with another parachain as its sender. -/
def proofFrom (paraId : ParaId) : SoleProof := { SoleProof.honest with paraId := paraId }

/-- A block that brings the BEEFY root of that proof. -/
def blockFrom (paraId : ParaId) (n : UInt32) : BlockStart :=
  ⟨n, some (proofFrom paraId).beefyRoot, (n - 1, H256.zero), fun _ => ⟨[], by decide⟩⟩

/-- The state after two blocks, which bring the roots of proofs from two parachains. -/
def afterTwoBlocks : RuntimeState :=
  initializeBlock keccak256 (initializeBlock keccak256 .genesis (blockFrom 1000 1)) (blockFrom 2000 2)

theorem reachable_afterTwoBlocks :
    Reachable (runtimeStep (.documented xcmrRoot) keccak256) .genesis afterTwoBlocks :=
  .tail (.tail .refl trivial (e := .block (blockFrom 1000 1)) rfl) trivial (e := .block (blockFrom 2000 2)) rfl

theorem submitXcmpProof_instances_afterTwoBlocks :
    afterTwoBlocks.msgStufferParaA.config.paraIdentifier ≠ afterTwoBlocks.msgStufferParaB.config.paraIdentifier ∧
      submitXcmpProof (.documented xcmrRoot) afterTwoBlocks.msgStufferParaA.storage (.signed []) (proofFrom 1000).proof
          (proofFrom 1000).beefyRoot =
        submitXcmpProof (.documented xcmrRoot) afterTwoBlocks.msgStufferParaB.storage (.signed [])
          (proofFrom 1000).proof (proofFrom 1000).beefyRoot :=
  submitXcmpProof_instances _ _ _ reachable_afterTwoBlocks _ _ _

private theorem accepted_proofFrom {s : Storage} {paraId : ParaId}
    (hs : s.seenBeefyRoots.contains (proofFrom paraId).beefyRoot = true) :
    submitXcmpProof (.documented xcmrRoot) s (.signed []) (proofFrom paraId).proof (proofFrom paraId).beefyRoot =
      .ok () :=
  (proofFrom paraId).accepted hs (Mmr.verifyLeavesProof_second keccak _ _) []

/-- After two blocks both instances, whose parachains are `1` and `2`, accept a proof from parachain `1000` and one from
parachain `2000`. -/
theorem submitXcmpProof_sender_unbound :
    Reachable (runtimeStep (.documented xcmrRoot) keccak256) .genesis afterTwoBlocks ∧
      afterTwoBlocks.msgStufferParaA.config.paraIdentifier = 1 ∧
      afterTwoBlocks.msgStufferParaB.config.paraIdentifier = 2 ∧
      ∀ paraId ∈ [1000, 2000], (proofFrom paraId).proof.stage2.leaf.paraId = paraId ∧
        submitXcmpProof (.documented xcmrRoot) afterTwoBlocks.msgStufferParaA.storage (.signed [])
          (proofFrom paraId).proof (proofFrom paraId).beefyRoot = .ok () ∧
        submitXcmpProof (.documented xcmrRoot) afterTwoBlocks.msgStufferParaB.storage (.signed [])
          (proofFrom paraId).proof (proofFrom paraId).beefyRoot = .ok () := by
  refine ⟨reachable_afterTwoBlocks, rfl, rfl, ?_⟩
  intro paraId hid
  have hseen : (((∅ : Std.TreeMap H256 UInt32).insert (proofFrom 1000).beefyRoot 1).insert
      (proofFrom 2000).beefyRoot 2).contains (proofFrom paraId).beefyRoot = true := by
    rcases List.mem_pair.1 hid with rfl | rfl
    · simp
    · simp
  exact ⟨rfl, accepted_proofFrom hseen, accepted_proofFrom hseen⟩

end XcmpPrototype
