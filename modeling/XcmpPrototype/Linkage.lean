import XcmpPrototype.Relayer

/-!
# The stages of a submitted proof fit together

The parts of a proof come from maps that two collectors fill at different blocks, and that may change between any two
lookups.  They fit nevertheless, because a key of a map determines what its entries open: an entry under a header root
is a BEEFY proof whose first leaf has that root as its extra field, and an entry under a channel root is a head from
which that root is extracted.  So the links between the first three stages cannot be the reason for which the pallet
rejects a submitted proof.
-/

open Scale

namespace XcmpPrototype.Relayer

variable {env : Externals}

/-! ### What the keys say -/

/-- The first leaf of the proof decodes to a BEEFY leaf over the given root of heads. -/
def OpensHeaderRoot (proof : LeavesProof) (root : H256) : Prop :=
  ∃ b bs l rest, decodeLeaves proof.leaves = some (b :: bs) ∧ BeefyMmrLeaf.codec.decode b = some (l, rest) ∧
    l.leafExtra = root

structure KeysLink (env : Externals) (m : Maps) : Prop where
  leaves : ∀ (k : H256 × UInt32) (v : H256 × LeavesProof), m.leavesBeefyMmrMap[k]? = some v → OpensHeaderRoot v.2 k.1
  headers : ∀ (k : H256) (p : ParaMerkleProof), m.paraHeadersMap[k]? = some p →
    extractXcmpChannelRoot env p.leaf = some k

/-- The links between the first three stages of a proof. -/
structure Linked (env : Externals) (p : XcmpProof) : Prop where
  leaf : ∃ b bs l rest, p.stage1.2 = b :: bs ∧ BeefyMmrLeaf.codec.decode b = some (l, rest) ∧
    l.leafExtra = p.stage2.root
  head : ∃ header rest, Header.codec.decode p.stage2.leaf.headData.1 = some (header, rest) ∧
    env.extractXcmpChannelMerkleRoot header.digest = some p.stage3.root

/-- What insertions and submissions promise. -/
def LinkAsked (env : Externals) : Query → Prop
  | .tryLock (.insertLeaf headerRoot _ _ proof) => OpensHeaderRoot proof headerRoot
  | .tryLock (.insertParaHeader root proof) => extractXcmpChannelRoot env proof.leaf = some root
  | .request (.signAndSubmit p _) => Linked env p
  | _ => True

/-- What lookups may rely on. -/
def LinkKnown (env : Externals) : (q : Query) → Answer q → Prop
  | .tryLock (.getParaHeader root), a => ∀ p, a = some (some p) → extractXcmpChannelRoot env p.leaf = some root
  | .tryLock (.beefyEntries root), a => ∀ es, a = some es → ∀ e ∈ es, OpensHeaderRoot e.2 root
  | _, _ => True

/-! ### The tasks keep the links -/

private theorem collectRelayData_links (b : Block) :
    Prog.wp (LinkKnown env) (fun _ => LinkAsked env) [] (collectRelayData env b) (fun _ _ => True) := by
  simp only [collectRelayData, request, tryLock, orError, first, generateMmrProof, Prog.wp_bind, Prog.wp_query,
    Prog.wp_pure, Prog.onOk_ok, Prog.wp_ofOption, Prog.wp_check, Prog.onOk_error, LinkAsked, LinkKnown, implies_true,
    and_true, true_and, forall_const]
  intro _ root _ _ _ _ _ proof _ leaves hleaves leaf hleaf mmrLeaf hmmrLeaf
  refine ⟨?_, ?_⟩
  · obtain ⟨bs, rfl⟩ := List.head?_eq_some_iff.1 hleaf
    exact ⟨leaf, bs, mmrLeaf.1, mmrLeaf.2, hleaves, hmmrLeaf, rfl⟩
  · intro _ paraMerkleProof _ hne
    -- the default of a failed extraction was refused
    cases hx : extractXcmpChannelRoot env paraMerkleProof.leaf with
    | some r => rfl
    | none => simp [hx] at hne

private theorem linkAsked_of_para {q : Query} (hq : AskedBy .para q) : LinkAsked env q := by
  cases q with
  | request r =>
    cases r with
    | signAndSubmit p root => cases hq
    | _ => trivial
  | tryLock x =>
    cases x with
    | insertLeaf headerRoot n beefyRoot proof => cases hq
    | insertParaHeader root proof => cases hq
    | _ => trivial

theorem linked_of_entries {stage1Proof stage4Proof : MmrProof} {leaves stage4Leaves : List EncodableOpaqueLeaf}
    {stage1 : H256 × LeavesProof} {stage2 : ParaMerkleProof} {stage3 : ChannelMerkleProof}
    (h1 : OpensHeaderRoot stage1.2 stage2.root) (hleaves : decodeLeaves stage1.2.leaves = some leaves)
    (h2 : extractXcmpChannelRoot env stage2.leaf = some stage3.root) :
    Linked env ⟨(stage1Proof, leaves), stage2, stage3, (stage4Proof, stage4Leaves)⟩ := by
  obtain ⟨b, bs, l, rest, hb, hl, hroot⟩ := h1
  rw [hleaves, Option.some.injEq] at hb
  obtain ⟨x, hx, hr⟩ := Option.bind_eq_some_iff.1 h2
  exact ⟨⟨b, bs, l, rest, hb, hl, hroot⟩, ⟨x.1, x.2, hx, hr⟩⟩

private theorem generateXcmpProof_links :
    Prog.wp (LinkKnown env) (fun _ => LinkAsked env) [] generateXcmpProof (fun _ _ => True) := by
  simp only [generateXcmpProof, lookUpStages, removeAndSubmit, request, tryLock, orError, Prog.wp_bind, Prog.wp_query,
    Prog.wp_pure, Prog.onOk_ok, Prog.wp_ofOption, Prog.wp_check, Prog.onOk_error, LinkAsked, LinkKnown, implies_true,
    and_true, true_and, forall_const]
  intro _ _ _ _ _ _ _ _ _ _ _ _ _ stage3 _ optStage2 hknown2 stage2 hstage2 entries hknown1 stage1 hstage1 leaves
    hleaves _ _ _ _ _ _ _ _ _
  refine wp_submitXcmpProof ?_ fun _ => ⟨trivial, trivial⟩
  have h2 := hknown2 stage2 (Option.join_eq_some_iff.1 hstage2)
  have h1 : OpensHeaderRoot stage1.2 stage2.root := by
    cases entries with
    | none => cases hstage1
    | some es => exact hknown1 es rfl stage1 (List.mem_of_getLast? hstage1)
  exact linked_of_entries h1 hleaves h2

private theorem KeysLink.write {m : Maps} (h : KeysLink env m) {x : Access} (hx : LinkAsked env (.tryLock x)) :
    KeysLink env (x.write m) := by
  cases x with
  | insertLeaf headerRoot n beefyRoot proof => exact ⟨forall_getElem?_insert h.leaves hx, h.headers⟩
  | insertParaHeader root proof => exact ⟨h.leaves, forall_getElem?_insert h.headers hx⟩
  | _ => exact ⟨h.leaves, h.headers⟩

private theorem KeysLink.read {m : Maps} (h : KeysLink env m) (x : Access) :
    LinkKnown env (.tryLock x) (some (x.read m)) := by
  cases x with
  | getParaHeader root =>
    intro p hp
    exact h.headers root p (Option.some.inj hp)
  | beefyEntries root =>
    intro es hes e he
    obtain rfl := Option.some.inj hes
    obtain ⟨y, hy, rfl⟩ := List.mem_map.1 he
    obtain ⟨hy, hroot⟩ := List.mem_filter.1 hy
    rw [← of_decide_eq_true hroot]
    exact h.leaves y.1 y.2 (Std.TreeMap.mem_toList_iff_getElem?_eq_some.1 hy)
  | _ => trivial

private theorem LinkKnown.busy (x : Access) : LinkKnown env (.tryLock x) none := by
  cases x with
  | getParaHeader root => intro p hp; cases hp
  | beefyEntries root => intro es hes; cases hes
  | _ => trivial

def linkSpec (env : Externals) : Machine.Spec TaskId Shared Block Answer Failure where
  inv s := KeysLink env s.maps
  loc _ _ _ _ := True
  known _ _ := LinkKnown env
  asked _ _ _ := LinkAsked env
  post _ _ _ _ := True

theorem linkSpec_sound (env : Externals) : (linkSpec env).Sound (machine env) (fun _ _ => True) where
  body i b := by
    cases i with
    | relay => exact collectRelayData_links b
    | para => exact Prog.wp_mono_asked (fun _ _ _ => trivial) (fun _ _ => linkAsked_of_para) (body_askedBy env .para b)
    | generator => exact generateXcmpProof_links
  start _ _ _ _ := trivial
  answer s i b h q k a shared _ hinv _ hasked _ hh := by
    cases handled_of_handle hh with
    | request r a => exact ⟨hinv, trivial, by cases r <;> trivial⟩
    | busy x => exact ⟨hinv, trivial, LinkKnown.busy x⟩
    | locked x => exact ⟨hinv.write hasked, trivial, hinv.read x⟩
  other _ _ _ _ _ _ _ _ _ _ _ _ _ _ := trivial
  world _ _ hinv := ⟨hinv, fun _ _ _ _ => trivial⟩

/-! ### Submitted proofs -/

/-- The errors of the pallet for stages that do not fit together. -/
def linkErrors : List Error :=
  [.xcmpStage2LeafDoesntDecode, .xcmpStage2RootDoesntMatch, .xcmpStage3HeaderDoesntDecode, .xcmpStage3CannotBeExtracted,
    .xcmpStage3RootDoesntMatch]

/-- The pallet does not reject a linked proof for its links, whatever else is wrong with it. -/
private theorem Linked.ne_error {p : XcmpProof} (h : Linked env p) (st : Storage) (origin : Origin)
    (beefyRootTargeted : H256) {e : Error} (he : e ∈ linkErrors) :
    XcmpPrototype.submitXcmpProof env st origin p beefyRootTargeted ≠ .error (.error e) := by
  obtain ⟨b, bs, l, rest, hleaves, hl, hroot⟩ := h.leaf
  have hextract : XcmpPrototype.extractXcmpChannelRoot env p.stage2.leaf = .ok p.stage3.root :=
    extractXcmpChannelRoot_eq_ok.2 h.head
  intro herr
  simp only [XcmpPrototype.submitXcmpProof, hleaves, XcmpPrototype.first, hl, okOr, hroot, hextract, bind_eq_error,
    ensureSigned_eq_error, ensure_eq_error, tryInto_eq_error, decide_true, Except.ok.injEq, exists_eq_left',
    reduceCtorEq, Failure.error.injEq, Bool.true_eq_false, false_and, and_false, false_or] at herr
  -- what is left are the errors of the other checks
  rcases herr with ⟨_, -, ⟨-, rfl⟩ | ⟨_, -, ⟨-, rfl⟩ | ⟨_, -, ⟨-, rfl⟩ | ⟨_, -, _, -, _, -, _, -, ⟨-, rfl⟩ |
    ⟨_, -, _, -, _, -, _, -, ⟨-, rfl⟩ | ⟨_, -, -, rfl⟩⟩⟩⟩⟩⟩ <;> exact absurd he (by decide)

/-- Whenever the relayer is about to submit a proof, the first stage-1 leaf is a BEEFY leaf over the root of stage 2,
and the head of stage 2 carries the root of stage 3; so the pallet cannot reject the proof for these links. -/
theorem submitting_linked (env : Externals) (best : H256) (s : State)
    (h : Reachable (machine env).step (boot best) s) (p : XcmpProof) (root : H256)
    (hp : submitting s = some (p, root)) :
    (∃ b bs l rest, p.stage1.2 = b :: bs ∧ BeefyMmrLeaf.codec.decode b = some (l, rest) ∧
      l.leafExtra = p.stage2.root) ∧
    (∃ header rest, Header.codec.decode p.stage2.leaf.headData.1 = some (header, rest) ∧
      env.extractXcmpChannelMerkleRoot header.digest = some p.stage3.root) ∧
    ∀ (st : Storage) (origin : Origin) (beefyRootTargeted : H256), ∀ e ∈ linkErrors,
      XcmpPrototype.submitXcmpProof env st origin p beefyRootTargeted ≠ .error (.error e) := by
  have hempty : KeysLink env Maps.empty := ⟨by simp [Maps.empty], by simp [Maps.empty]⟩
  have hs := (linkSpec_sound env).holds ⟨.empty, best⟩ hempty h
  obtain ⟨b, hist, k, hgen⟩ := submitting_eq_some hp
  have hlink : Linked env p := (hs.running .generator b hist _ hgen).1.1
  exact ⟨hlink.leaf, hlink.head, fun st origin target e he => hlink.ne_error st origin target he⟩

/-! ### A relayer with one message -/

/-- The proof of one of two leaves, generated at a block; `other` is the hash of the other leaf. -/
def leafProof (block : Block) (index : UInt64) (other : H256) (leaf : Vec UInt8) : LeavesProof where
  blockHash := block.hash
  leaves := opaqueLeaves.encode ⟨[leaf], by simp⟩
  proof := MmrProof.codec.encode (⟨[index], by simp⟩, 2, ⟨[other], by simp⟩)

def relayBlock : Block := ⟨.repeatByte 0x10, 5⟩

def relayLeaf : BeefyMmrLeaf := ⟨0, (4, H256.zero), ⟨0, 0, H256.zero⟩, .repeatByte 0x11⟩

def relayLeafBytes : Vec UInt8 := ⟨BeefyMmrLeaf.codec.encode relayLeaf, by rw [BeefyMmrLeaf.length_encode]; decide⟩

/-- A relay node with one parachain, whose head carries the channel root `0x12…`; the MMR root `0x13…` is the same in
all blocks. -/
def relayNode : Nodes := fun _ r => match r with
  | .mmrRoot .. => some (some (.repeatByte 0x13))
  | .getHeader _ => some (some (headerWith H256.zero))
  | .generateProof .. => some (some (leafProof relayBlock 1 H256.zero relayLeafBytes))
  | .getParaHeadsProof .. => some (some ⟨relayLeaf.leafExtra, [], 1, 0, headWith 1000 (.repeatByte 0x12)⟩)
  | .getXcmpChannelsProof .. => some none
  | .getCurrentBeefyRoot => some H256.zero
  | .blocksAtLatest | .runtimeApiAtLatest | .signAndSubmit .. | .waitForInBlock | .waitForSuccess => some ()

/-- A node of the parachain with the given root of messages. -/
def paraNode (block : Block) (msgRoot : H256) : Nodes := fun best r => match r with
  | .mmrRoot .. => some (some msgRoot)
  | .generateProof .. => some (some (leafProof block 1 H256.zero ⟨[1, 2, 3], by simp⟩))
  | .getXcmpChannelsProof .. => some (some ⟨.repeatByte 0x12, [], 1, 0, msgRoot⟩)
  | r => relayNode best r

def paraBlock : Block := ⟨.repeatByte 0x20, 7⟩

def relayer : Machine TaskId Shared Block H256 Answer Failure := machine (.documented xcmrRoot)

/-- Both collectors have seen one block. -/
def collected : State :=
  relayer.perform (freeReply (paraNode paraBlock (.repeatByte 0x21)))
    (relayer.perform (freeReply relayNode) (boot H256.zero) .relay relayBlock) .para paraBlock

theorem reachable_collected : Reachable relayer.step (boot H256.zero) collected :=
  (reachable_perform _ relayBlock rfl).trans
    (reachable_perform _ paraBlock (Machine.perform_tasks_of_ne (by decide)))

theorem collected_generator : collected.tasks .generator = .idle := by
  rw [collected, Machine.perform_tasks_of_ne (by decide), Machine.perform_tasks_of_ne (by decide)]
  rfl

def isSubmission : Query → Bool
  | .request (.signAndSubmit ..) => true
  | _ => false

/-- The generator has assembled a proof and is about to submit it. -/
def assembled : State :=
  relayer.launch isSubmission (freeReply (paraNode paraBlock (.repeatByte 0x21))) collected .generator paraBlock

theorem reachable_assembled : Reachable relayer.step (boot H256.zero) assembled :=
  reachable_collected.trans (reachable_launch _ _ paraBlock collected_generator)

theorem submitting_assembled :
    submitting assembled = some (⟨(⟨[1], 2, [H256.zero]⟩, [BeefyMmrLeaf.codec.encode relayLeaf]),
      ⟨relayLeaf.leafExtra, [], 1, 0, headWith 1000 (.repeatByte 0x12)⟩,
      ⟨.repeatByte 0x12, [], 1, 0, .repeatByte 0x21⟩, (⟨[1], 2, [H256.zero]⟩, [[1, 2, 3]])⟩, .repeatByte 0x13) := by
  decide +kernel

theorem submitting_linked_assembled :
    ∃ p root, submitting assembled = some (p, root) ∧
      (∃ b bs l rest, p.stage1.2 = b :: bs ∧ BeefyMmrLeaf.codec.decode b = some (l, rest) ∧
        l.leafExtra = p.stage2.root) ∧
      (∃ header rest, Header.codec.decode p.stage2.leaf.headData.1 = some (header, rest) ∧
        xcmrRoot header.digest = some p.stage3.root) ∧
      ∀ (st : Storage) (origin : Origin) (beefyRootTargeted : H256), ∀ e ∈ linkErrors,
        XcmpPrototype.submitXcmpProof (.documented xcmrRoot) st origin p beefyRootTargeted ≠ .error (.error e) :=
  ⟨_, _, submitting_assembled, submitting_linked (.documented xcmrRoot) H256.zero assembled reachable_assembled _ _
    submitting_assembled⟩

end XcmpPrototype.Relayer
