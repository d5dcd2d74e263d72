import XcmpPrototype.Submissions

/-!
# Which channel proof is stored under a message root

The para collector asks for the message root of a block and for a proof of the channel root, and stores the proof under
the message root if the leaf of the proof is some pending message root.  It does not compare the leaf with the root at
hand.  So the third and the fourth stage of a proof belong together in every run in which the comparison succeeds for
the root at hand only (`stages_linked`), and not if the proof is for an older root that is still pending
(`stages_not_linked`).
-/

open Scale

namespace XcmpPrototype.Relayer

variable {env : Externals}

/-! ### The root at hand -/

/-- The node has answered with the message root `r`. -/
def Obtained (h : Hist Answer) (r : H256) : Prop :=
  ∃ block mmrId, ⟨.request (.mmrRoot block mmrId), some (some r)⟩ ∈ h

/-- The leaf of a channel proof was found among the pending roots. -/
def Compared (h : Hist Answer) (leaf : H256) : Prop := ⟨.tryLock (.containsMsgRoot leaf), some true⟩ ∈ h

/-- When the collector finds the leaf of a channel proof among the pending roots, it is the root at hand. -/
def ComparesOwnRoot (s : State) : Event → Prop
  | .answer .para (.tryLock (.containsMsgRoot leaf)) a => a = some true →
      ∀ b h p, s.tasks .para = .running b h p → ∀ r, Obtained h r → leaf = r
  | _ => True

/-- All comparisons so far were successful for the root at hand only. -/
def OwnRoot (h : Hist Answer) : Prop := ∀ leaf r, Compared h leaf → Obtained h r → leaf = r

/-- The root is asked for first; a channel proof is stored after a comparison, under the root at hand; a submitted proof
has the root of its messages as the leaf of stage 3. -/
def StageAsked (i : TaskId) (h : Hist Answer) : Query → Prop
  | .request (.mmrRoot ..) => h = []
  | .request (.signAndSubmit p _) =>
      ∃ v, ⟨.tryLock .firstMsgRoot, some (some (p.stage3.leaf, v))⟩ ∈ h ∧ ReadFrom v p
  | .tryLock (.containsMsgRoot _) => i = .para
  | .tryLock (.insertMsgRootChannel root proof) => Compared h proof.leaf ∧ Obtained h root
  | _ => True

/-- What a lookup of stage 3 may rely on. -/
def StageKnown : (q : Query) → Answer q → Prop
  | .tryLock (.getMsgRootChannel root), a => ∀ p, a = some (some p) → p.leaf = root
  | _, _ => True

/-! ### The tasks -/

private theorem collectRelayData_stages (b : Block) :
    Prog.wp StageKnown (StageAsked .relay) [] (collectRelayData env b) (fun _ _ => True) := by
  simp only [collectRelayData, request, tryLock, orError, first, generateMmrProof, Prog.wp_bind, Prog.wp_query,
    Prog.wp_pure, Prog.onOk_ok, Prog.wp_ofOption, Prog.wp_check, Prog.onOk_error, StageAsked, StageKnown, implies_true,
    and_self]

private theorem collectParaData_stages (b : Block) :
    Prog.wp StageKnown (StageAsked .para) [] (collectParaData b) (fun _ _ => True) := by
  simp only [collectParaData, request, tryLock, orError, generateMmrProof, generateMmrRoot, Prog.wp_bind,
    Prog.wp_query, Prog.onOk_ok, Prog.wp_ofOption, Prog.onOk_error, StageAsked, StageKnown, implies_true, and_true,
    true_and, forall_const]
  intro optRoot msgRoot hroot _ _ _ _ _ proof _ _ rootsMatch
  split
  · rename_i hmatch
    have htrue : rootsMatch = some true := by
      cases rootsMatch with
      | none => cases hmatch
      | some c => exact congrArg some hmatch
    refine ⟨⟨?_, some b.hash, some receiverChannelId, ?_⟩, fun _ _ => trivial⟩
    · rw [htrue]
      exact List.mem_cons_self
    · rw [Option.join_eq_some_iff.1 hroot]
      simp
  · trivial

private theorem generateXcmpProof_stages :
    Prog.wp StageKnown (StageAsked .generator) [] generateXcmpProof (fun _ _ => True) := by
  simp only [generateXcmpProof, lookUpStages, removeAndSubmit, request, tryLock, orError, Prog.wp_bind, Prog.wp_query,
    Prog.wp_pure, Prog.onOk_ok, Prog.wp_ofOption, Prog.wp_check, Prog.onOk_error, StageAsked, StageKnown, implies_true,
    and_true, true_and, forall_const]
  intro block _ _ entry stage4 hentry rootsMatch _ stage4Leaves hleaves stage4Proof hproof optStage3 hknown stage3
    hstage3
  intros
  refine wp_submitXcmpProof ⟨stage4.2, ?_, hleaves, hproof⟩ fun _ => ⟨trivial, trivial⟩
  have hleaf : stage3.leaf = stage4.1 := hknown stage3 (Option.join_eq_some_iff.1 hstage3)
  rw [hleaf, Option.join_eq_some_iff.1 hentry]
  simp

private theorem body_stages (i : TaskId) (b : Block) :
    Prog.wp StageKnown (StageAsked i) [] ((machine env).body i b) (fun _ _ => True) := by
  cases i with
  | relay => exact collectRelayData_stages b
  | para => exact collectParaData_stages b
  | generator => exact generateXcmpProof_stages

/-! ### The map of channel proofs -/

/-- Every channel proof is for the root it is stored under. -/
def LeavesMatch (m : Maps) : Prop :=
  ∀ (k : H256) (p : ChannelMerkleProof), m.msgRootChannelMerkleMap[k]? = some p → p.leaf = k

private theorem LeavesMatch.write {m : Maps} (hm : LeavesMatch m) {i : TaskId} {h : Hist Answer} (hh : OwnRoot h)
    {x : Access} (hx : StageAsked i h (.tryLock x)) : LeavesMatch (x.write m) := by
  cases x with
  | insertMsgRootChannel root proof => exact forall_getElem?_insert hm (hh proof.leaf root hx.1 hx.2)
  | _ => exact hm

private theorem LeavesMatch.read {m : Maps} (hm : LeavesMatch m) (x : Access) :
    StageKnown (.tryLock x) (some (x.read m)) := by
  cases x with
  | getMsgRootChannel root => exact fun p hp => hm root p (Option.some.inj hp)
  | _ => trivial

private theorem StageKnown.busy (x : Access) : StageKnown (.tryLock x) none := by
  cases x with
  | getMsgRootChannel root => intro p hp; cases hp
  | _ => trivial

/-- A new answer keeps the comparisons right if it comes before them, or is a right one itself. -/
private theorem OwnRoot.cons {h : Hist Answer} (hh : OwnRoot h) {x : Sigma Answer}
    (hroot : ∀ block mmrId r, x = ⟨.request (.mmrRoot block mmrId), some (some r)⟩ → h = [])
    (hcompare : ∀ leaf, x = ⟨.tryLock (.containsMsgRoot leaf), some true⟩ → ∀ r, Obtained h r → leaf = r) :
    OwnRoot (x :: h) := by
  rintro leaf r hleaf ⟨block, mmrId, hr⟩
  rcases List.mem_cons.1 hr with heq | hr
  · obtain rfl := hroot block mmrId r heq.symm
    rw [Compared, List.mem_singleton, ← heq] at hleaf
    cases hleaf
  · rcases List.mem_cons.1 hleaf with heq | hleaf
    · exact hcompare leaf heq.symm r ⟨block, mmrId, hr⟩
    · exact hh leaf r hleaf ⟨block, mmrId, hr⟩

def stageSpec : Machine.Spec TaskId Shared Block Answer Failure where
  inv s := LeavesMatch s.maps
  loc _ _ _ := OwnRoot
  known _ _ := StageKnown
  asked i _ := StageAsked i
  post _ _ _ _ := True

theorem stageSpec_sound (env : Externals) : stageSpec.Sound (machine env) ComparesOwnRoot where
  body := body_stages
  start _ _ _ _ := by
    intro leaf r hleaf
    cases hleaf
  answer s i b h q k a shared hi hinv hloc hasked hc hh := by
    have hcons : OwnRoot (⟨q, a⟩ :: h) := by
      refine OwnRoot.cons hloc ?_ ?_
      · rintro block mmrId r heq
        cases heq
        exact hasked
      · rintro leaf heq r hr
        cases heq
        obtain rfl : i = .para := hasked
        exact hc rfl b h _ hi r hr
    cases handled_of_handle hh with
    | request r a => exact ⟨hinv, hcons, trivial⟩
    | busy x => exact ⟨hinv, hcons, StageKnown.busy x⟩
    | locked x => exact ⟨hinv.write hloc hasked, hcons, hinv.read x⟩
  other _ _ _ _ _ _ _ _ _ _ _ hloc _ _ := hloc
  world _ _ hinv := ⟨hinv, fun _ _ _ hloc => hloc⟩

/-- In every run in which the comparison of the collector succeeds for the root at hand only, every channel proof is
stored under its own leaf, and every proof that the relayer is about to submit has as the leaf of stage 3 the root under
which its messages were read. -/
theorem stages_linked (env : Externals) (best : H256) (s : State)
    (h : Reaches (machine env).step ComparesOwnRoot (boot best) s) :
    (∀ (k : H256) (p : ChannelMerkleProof), s.shared.maps.msgRootChannelMerkleMap[k]? = some p → p.leaf = k) ∧
      ∀ p root, submitting s = some (p, root) →
        ∃ b h k v, s.tasks .generator = .running b h k ∧
          ⟨.tryLock .firstMsgRoot, some (some (p.stage3.leaf, v))⟩ ∈ h ∧
          decodeLeaves v.leaves = some p.stage4.2 ∧ decodeProof v.proof = some p.stage4.1 := by
  have hempty : LeavesMatch Maps.empty := by simp [LeavesMatch, Maps.empty]
  have hs := (stageSpec_sound env).holds ⟨.empty, best⟩ hempty h
  refine ⟨hs.inv, fun p root hp => ?_⟩
  obtain ⟨b, hist, k, hgen⟩ := submitting_eq_some hp
  obtain ⟨v, hv⟩ := (hs.running .generator b hist _ hgen).1.1
  exact ⟨b, hist, _, v, hgen, hv⟩

/-! ### Two blocks of the parachain -/

private theorem comparesOwnRoot_paraNode (block : Block) (msgRoot : H256) :
    Prog.wp (fun q a => ∃ s, a = (freeReply (paraNode block msgRoot) s q).1)
      (fun h q => ∀ leaf, q = .tryLock (.containsMsgRoot leaf) → ∀ r, Obtained h r → leaf = r) []
      (collectParaData block) (fun _ _ => True) := by
  simp only [collectParaData, request, tryLock, orError, generateMmrProof, generateMmrRoot, Prog.wp_bind,
    Prog.wp_query, Prog.onOk_ok, Prog.wp_ofOption, Prog.onOk_error, freeReply, paraNode, Query.tryLock.injEq,
    reduceCtorEq, true_and, implies_true, and_true, IsEmpty.forall_iff]
  rintro _ ⟨_, rfl⟩ _ _ _ ⟨_, rfl⟩ _ _ _ _ _ ⟨_, rfl⟩ channelMerkleProof hproof _ _
  refine ⟨?_, fun rootsMatch _ => ?_⟩
  · rintro leaf hleaf r ⟨block', mmrId, hr⟩
    cases hproof
    obtain rfl := Access.containsMsgRoot.inj hleaf
    have hroot : (block' = some block.hash ∧ mmrId = some receiverChannelId) ∧ msgRoot = r := by
      simpa [eq_comm] using hr
    exact hroot.2
  · split
    · refine ⟨?_, fun _ _ => trivial⟩
      intro _ hq
      cases hq
    · trivial

/-- The run to `assembled` compares the root at hand with itself. -/
theorem reaches_assembled : Reaches relayer.step ComparesOwnRoot (boot H256.zero) assembled := by
  have hrelay : Reaches relayer.step ComparesOwnRoot (boot H256.zero)
      (relayer.perform (freeReply relayNode) (boot H256.zero) .relay relayBlock) :=
    reaches_perform_free relayNode relayBlock rfl trivial (fun _ _ => trivial) fun _ => trivial
  have hpara : Reaches relayer.step ComparesOwnRoot
      (relayer.perform (freeReply relayNode) (boot H256.zero) .relay relayBlock) collected := by
    refine Machine.reaches_perform_of_wp (J := fun _ _ => True) (fun s _ q _ _ => ⟨handle_freeReply _ s q, trivial⟩) ?_
      (comparesOwnRoot_paraNode paraBlock _) trivial (Machine.perform_tasks_of_ne (by decide)) trivial fun _ => trivial
    intro s h q k _ hq hi
    cases q with
    | request r => trivial
    | tryLock x =>
      cases x with
      | containsMsgRoot leaf =>
        intro _ b' h' p hb r hr
        rw [hi] at hb
        cases hb
        exact hq leaf rfl r hr
      | _ => trivial
  have hgenerator : Reaches relayer.step ComparesOwnRoot collected assembled :=
    reaches_launch_free isSubmission _ paraBlock collected_generator trivial fun _ _ => trivial
  exact (hrelay.trans hpara).trans hgenerator

theorem stages_linked_assembled :
    ∃ p root, submitting assembled = some (p, root) ∧
      ∃ b h k v, assembled.tasks .generator = .running b h k ∧
        ⟨.tryLock .firstMsgRoot, some (some (p.stage3.leaf, v))⟩ ∈ h ∧
        decodeLeaves v.leaves = some p.stage4.2 ∧ decodeProof v.proof = some p.stage4.1 :=
  ⟨_, _, submitting_assembled, (stages_linked (.documented xcmrRoot) H256.zero assembled reaches_assembled).2 _ _
    submitting_assembled⟩

/-- The node of a later block, whose channel proof is for the message root of `paraBlock`. -/
def staleNode : Nodes := fun best r => match r with
  | .getXcmpChannelsProof .. => some (some ⟨.repeatByte 0x12, [], 1, 0, .repeatByte 0x21⟩)
  | r => paraNode ⟨.repeatByte 0x30, 8⟩ (.repeatByte 0x05) best r

/-- The para collector has seen that block too. -/
def staled : State := relayer.perform (freeReply staleNode) collected .para ⟨.repeatByte 0x30, 8⟩

theorem reachable_staled : Reachable relayer.step (boot H256.zero) staled :=
  reachable_collected.trans (reachable_perform _ _ collected_para)

theorem staled_generator : staled.tasks .generator = .idle := by
  rw [staled, Machine.perform_tasks_of_ne (by decide)]
  exact collected_generator

/-- The generator is about to submit a proof for the new root. -/
def staleAssembled : State := relayer.launch isSubmission (freeReply deliveringNode) staled .generator paraBlock

/-- The proof under the new root `0x05…` is for the root `0x21…`, and is submitted with the messages of the new one. -/
theorem stages_not_linked :
    Reachable relayer.step (boot H256.zero) staleAssembled ∧
      staleAssembled.shared.maps.msgRootChannelMerkleMap[H256.repeatByte 0x05]? =
        some ⟨.repeatByte 0x12, [], 1, 0, .repeatByte 0x21⟩ ∧
      (submitting staleAssembled).any (fun x => x.1.stage3.leaf = .repeatByte 0x21) = true ∧
      ((staleAssembled.hists .generator).all fun h => h.any (isPick (.repeatByte 0x05))) = true ∧
      H256.repeatByte 0x21 ≠ .repeatByte 0x05 := by
  refine ⟨reachable_staled.trans (reachable_launch _ _ _ staled_generator), by decide +kernel, by decide +kernel,
    by decide +kernel, by decide +kernel⟩

end XcmpPrototype.Relayer
