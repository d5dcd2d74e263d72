import XcmpPrototype.ChannelProofs
import XcmpPrototype.RelayRoots
import XcmpPrototype.SeenRoots

/-!
# The verdict on a submitted proof

The relayer never checks what it submits.  It relies on the nodes: each piece of a proof was obtained from a node, and
was a valid piece when it was obtained.  But the pieces come from different blocks of two chains, through maps that
change all the time.  If the nodes answer honestly, then in every interleaving the pallet finds nothing wrong with a
submitted proof except in two places (`submitting_verdict`): it may not have seen the BEEFY root, and the root may be
another one than that of the block of the BEEFY proof.  The latter does not happen while the relay collector keeps up
with its node (`accepted_iff_of_submitting`).
-/

open Scale

namespace XcmpPrototype.Relayer

variable {env : Externals} {mmrRootAt msgRootAt : H256 → H256}

/-! ### Honest nodes -/

/-- The counts fit into 32 bits and the leaf is below the root. -/
structure Includes (env : Externals) (root : H256) (proof : List H256) (numLeaves leafIndex : UInt64) (leaf : Bytes) :
    Prop where
  count : numLeaves.toNat < 2 ^ 32
  index : leafIndex.toNat < 2 ^ 32
  verifies : env.verifyProof root proof numLeaves.toUInt32 leafIndex.toUInt32 leaf = true

def HeadVerifies (env : Externals) (p : ParaMerkleProof) : Prop :=
  Includes env p.root p.proof p.numLeaves p.leafIndex (ParaLeaf.codec.encode p.leaf)

def ChannelVerifies (env : Externals) (p : ChannelMerkleProof) : Prop :=
  Includes env p.root p.proof p.numLeaves p.leafIndex p.leaf.bytes

/-- A proof for one block has at most one leaf. -/
def SingleLeaf (proof : LeavesProof) : Prop := ∀ leaves, decodeLeaves proof.leaves = some leaves → leaves.length ≤ 1

/-- What the relay node hands out besides roots and proofs of leaves is valid too. -/
def RelayPieces (env : Externals) : (r : Request) → r.Result → Prop
  | .generateProof .., a => ∀ p, a = some p → SingleLeaf p
  | .getParaHeadsProof .., a => ∀ p, a = some p → HeadVerifies env p
  | _, _ => True

/-- The node of the parachain answers from the state of the given block, in which the message root of the channel is
`msgRootAt`. -/
def ParaPieces (env : Externals) (msgRootAt : H256 → H256) : (r : Request) → r.Result → Prop
  | .mmrRoot (some block) mmrId, a => mmrId = some receiverChannelId → ∀ root, a = some root → root = msgRootAt block
  | .generateProof _ (some block) mmrId, a => mmrId = some receiverChannelId → ∀ p, a = some p →
      Verifies env p (msgRootAt block)
  | .getXcmpChannelsProof block channelId, a => channelId = receiverChannelId → ∀ p, a = some p →
      ChannelVerifies env p ∧ p.leaf = msgRootAt block
  | _, _ => True

/-- Requests of both collectors that do not fail are answered honestly. -/
def HonestNodes (env : Externals) (mmrRootAt msgRootAt : H256 → H256) (s : State) : Event → Prop
  | .answer .relay (.request r) a => ∀ x, a = some x →
      AnswersFrom env mmrRootAt s.shared.relayBest r x ∧ RelayPieces env r x
  | .answer .para (.request r) a => ∀ x, a = some x → ParaPieces env msgRootAt r x
  | _ => True

/-! ### Valid pieces in the maps -/

/-- An entry of `LEAVES_BEEFY_MMR_MAP`: the proof is valid at its own block, and in synchronous runs the root is that of
the same block. -/
structure LeafPiece (env : Externals) (mmrRootAt : H256 → H256) (sync : Prop) (root : H256) (proof : LeavesProof) :
    Prop where
  verifies : Verifies env proof (mmrRootAt proof.blockHash)
  single : SingleLeaf proof
  root : sync → root = mmrRootAt proof.blockHash

structure MapsVerify (env : Externals) (mmrRootAt : H256 → H256) (sync : Prop) (m : Maps) : Prop where
  leaves : ∀ (k : H256 × UInt32) (v : H256 × LeavesProof), m.leavesBeefyMmrMap[k]? = some v →
    LeafPiece env mmrRootAt sync v.1 v.2
  headers : ∀ (k : H256) (p : ParaMerkleProof), m.paraHeadersMap[k]? = some p → HeadVerifies env p
  messages : ∀ (k : H256) (v : LeavesProof), m.msgRootMap[k]? = some v → Verifies env v k
  channels : ∀ (k : H256) (p : ChannelMerkleProof), m.msgRootChannelMerkleMap[k]? = some p →
    ChannelVerifies env p ∧ p.leaf = k

/-- The stages of a proof that pass on their own. -/
structure StagesVerify (env : Externals) (mmrRootAt : H256 → H256) (sync : Prop) (p : XcmpProof) (root : H256) :
    Prop where
  stage1 : ∃ block, env.verifyLeavesProof (mmrRootAt block) p.stage1.2 p.stage1.1 = true ∧
    (sync → root = mmrRootAt block)
  single : p.stage1.2.length ≤ 1
  stage2 : HeadVerifies env p.stage2
  stage3 : ChannelVerifies env p.stage3
  stage4 : env.verifyLeavesProof p.stage3.leaf p.stage4.2 p.stage4.1 = true

/-- What insertions and submissions promise. -/
def PieceAsked (env : Externals) (mmrRootAt : H256 → H256) (sync : Prop) : Query → Prop
  | .tryLock (.insertLeaf _ _ root proof) => LeafPiece env mmrRootAt sync root proof
  | .tryLock (.insertParaHeader _ p) => HeadVerifies env p
  | .tryLock (.insertMsgRoot root proof) => Verifies env proof root
  | .tryLock (.insertMsgRootChannel root p) => ChannelVerifies env p ∧ p.leaf = root
  | .request (.signAndSubmit p root) => StagesVerify env mmrRootAt sync p root
  | _ => True

/-- What lookups may rely on. -/
def LookUpKnown (env : Externals) (mmrRootAt : H256 → H256) (sync : Prop) : (q : Query) → Answer q → Prop
  | .tryLock .firstMsgRoot, a => ∀ e, a = some (some e) → Verifies env e.2 e.1
  | .tryLock (.getMsgRootChannel root), a => ∀ p, a = some (some p) → ChannelVerifies env p ∧ p.leaf = root
  | .tryLock (.getParaHeader _), a => ∀ p, a = some (some p) → HeadVerifies env p
  | .tryLock (.beefyEntries _), a => ∀ es, a = some es → ∀ e ∈ es, LeafPiece env mmrRootAt sync e.1 e.2
  | _, _ => True

/-- What the relay collector may rely on, in its turn for block `b`. -/
def RelayKnown (env : Externals) (mmrRootAt : H256 → H256) (sync : Prop) (b : Block) : (q : Query) → Answer q → Prop
  | .request (.mmrRoot none _), a => sync → ∀ root, a = some (some root) → root = mmrRootAt b.hash
  | .request (.generateProof _ (some block) _), a => ∀ p, a = some (some p) →
      p.blockHash = block ∧ Verifies env p (mmrRootAt block) ∧ SingleLeaf p
  | .request (.getParaHeadsProof ..), a => ∀ p, a = some (some p) → HeadVerifies env p
  | _, _ => True

/-- What the para collector may rely on. -/
def ParaKnown (env : Externals) (msgRootAt : H256 → H256) : (q : Query) → Answer q → Prop
  | .request r, a => ∀ x, a = some x → ParaPieces env msgRootAt r x
  | _, _ => True

/-! ### The tasks handle valid pieces -/

variable {sync : Prop}

private theorem collectRelayData_pieces (b : Block) :
    Prog.wp (RelayKnown env mmrRootAt sync b) (fun _ => PieceAsked env mmrRootAt sync) [] (collectRelayData env b)
      fun _ _ => True := by
  simp only [collectRelayData, request, tryLock, orError, first, generateMmrProof, Prog.wp_bind, Prog.wp_query,
    Prog.wp_pure, Prog.onOk_ok, Prog.wp_ofOption, Prog.wp_check, Prog.onOk_error, PieceAsked, RelayKnown, implies_true,
    and_true, true_and, forall_const]
  intro optRoot hroot root hopt _ _ _ optProof hproof proof hopt' _ _ _ _ _ _
  obtain ⟨hblock, hverifies, hsingle⟩ := hproof proof (Option.join_eq_some_iff.1 hopt')
  refine ⟨⟨by rw [hblock]; exact hverifies, hsingle, fun hsync => ?_⟩, ?_⟩
  · rw [hblock]
    exact hroot hsync root (Option.join_eq_some_iff.1 hopt)
  · intro optHead hhead paraMerkleProof hopt'' _
    exact hhead paraMerkleProof (Option.join_eq_some_iff.1 hopt'')

private theorem collectParaData_pieces (b : Block) :
    Prog.wp (ParaKnown env msgRootAt) (fun _ => PieceAsked env mmrRootAt sync) [] (collectParaData b)
      fun _ _ => True := by
  simp only [collectParaData, request, tryLock, orError, generateMmrProof, generateMmrRoot, Prog.wp_bind,
    Prog.wp_query, Prog.onOk_ok, Prog.wp_ofOption, Prog.onOk_error, PieceAsked, ParaKnown, ParaPieces, implies_true,
    and_true, true_and, forall_const]
  intro optRoot hroot msgRoot hopt optProof hproof msgProof hopt'
  have hmsgRoot : msgRoot = msgRootAt b.hash := hroot _ (Option.join_eq_some_iff.1 hopt) msgRoot rfl
  refine ⟨?_, ?_⟩
  · rw [hmsgRoot]
    exact hproof _ (Option.join_eq_some_iff.1 hopt') msgProof rfl
  · intro _ optChannel hchannel p hopt'' _ rootsMatch
    split
    · -- the leaf is the root at hand, so the proof is stored under its own leaf
      obtain ⟨hp, hleaf⟩ := hchannel _ (Option.join_eq_some_iff.1 hopt'') p rfl
      exact ⟨⟨hp, by rw [hleaf, hmsgRoot]⟩, fun _ _ => trivial⟩
    · trivial

/-- Pieces that were valid when they were looked up make stages that pass. -/
theorem stagesVerify_of_pieces {stage1 : H256 × LeavesProof} {stage2 : ParaMerkleProof}
    {stage3 : ChannelMerkleProof} {stage4 : H256 × LeavesProof} {stage1Proof stage4Proof : MmrProof}
    {stage1Leaves stage4Leaves : List EncodableOpaqueLeaf} (h1 : LeafPiece env mmrRootAt sync stage1.1 stage1.2)
    (h2 : HeadVerifies env stage2) (h3 : ChannelVerifies env stage3 ∧ stage3.leaf = stage4.1)
    (h4 : Verifies env stage4.2 stage4.1) (hleaves1 : decodeLeaves stage1.2.leaves = some stage1Leaves)
    (hproof1 : decodeProof stage1.2.proof = some stage1Proof)
    (hleaves4 : decodeLeaves stage4.2.leaves = some stage4Leaves)
    (hproof4 : decodeProof stage4.2.proof = some stage4Proof) :
    StagesVerify env mmrRootAt sync ⟨(stage1Proof, stage1Leaves), stage2, stage3, (stage4Proof, stage4Leaves)⟩
      stage1.1 := by
  have hv1 : env.verifyLeavesProof (mmrRootAt stage1.2.blockHash) stage1Leaves stage1Proof = true := by
    obtain ⟨leaves, p, hl, hp, hv⟩ := h1.verifies
    rw [hleaves1, Option.some.injEq] at hl
    rw [hproof1, Option.some.injEq] at hp
    rwa [hl, hp]
  have hv4 : env.verifyLeavesProof stage3.leaf stage4Leaves stage4Proof = true := by
    obtain ⟨leaves, p, hl, hp, hv⟩ := h4
    rw [hleaves4, Option.some.injEq] at hl
    rw [hproof4, Option.some.injEq] at hp
    rwa [h3.2, hl, hp]
  exact ⟨⟨stage1.2.blockHash, hv1, h1.root⟩, h1.single stage1Leaves hleaves1, h2, h3.1, hv4⟩

private theorem generateXcmpProof_pieces :
    Prog.wp (LookUpKnown env mmrRootAt sync) (fun _ => PieceAsked env mmrRootAt sync) [] generateXcmpProof
      fun _ _ => True := by
  simp only [generateXcmpProof, lookUpStages, removeAndSubmit, request, tryLock, orError, Prog.wp_bind, Prog.wp_query,
    Prog.wp_pure, Prog.onOk_ok, Prog.wp_ofOption, Prog.wp_check, Prog.onOk_error, PieceAsked, LookUpKnown, implies_true,
    and_true, true_and, forall_const]
  intro _ _ _ entry hentry stage4 hopt4 _ _ stage4Leaves hleaves4 stage4Proof hproof4 optStage3 hknown3 stage3 hopt3
    optStage2 hknown2 stage2 hopt2 entries hknown1 stage1 hlast stage1Leaves hleaves1 stage1Proof hproof1 _ _ _ _ _ _ _
  refine wp_submitXcmpProof ?_ fun _ => ⟨trivial, trivial⟩
  have h1 : LeafPiece env mmrRootAt sync stage1.1 stage1.2 := by
    cases entries with
    | none => cases hlast
    | some es => exact hknown1 es rfl stage1 (List.mem_of_getLast? hlast)
  exact stagesVerify_of_pieces h1 (hknown2 stage2 (Option.join_eq_some_iff.1 hopt2))
    (hknown3 stage3 (Option.join_eq_some_iff.1 hopt3)) (hentry stage4 (Option.join_eq_some_iff.1 hopt4)) hleaves1
    hproof1 hleaves4 hproof4

/-! ### The maps keep valid pieces -/

private theorem MapsVerify.write {m : Maps} (h : MapsVerify env mmrRootAt sync m) {x : Access}
    (hx : PieceAsked env mmrRootAt sync (.tryLock x)) : MapsVerify env mmrRootAt sync (x.write m) := by
  cases x with
  | insertLeaf headerRoot n root proof =>
    exact ⟨forall_getElem?_insert h.leaves hx, h.headers, h.messages, h.channels⟩
  | insertParaHeader root p => exact ⟨h.leaves, forall_getElem?_insert h.headers hx, h.messages, h.channels⟩
  | insertMsgRoot root proof => exact ⟨h.leaves, h.headers, forall_getElem?_insert h.messages hx, h.channels⟩
  | insertMsgRootChannel root p => exact ⟨h.leaves, h.headers, h.messages, forall_getElem?_insert h.channels hx⟩
  | removeMsgRoot root =>
    refine ⟨h.leaves, h.headers, fun k v hk => ?_, h.channels⟩
    simp only [Access.write, Std.TreeMap.getElem?_erase, Option.ite_none_left_eq_some] at hk
    exact h.messages k v hk.2
  | _ => exact ⟨h.leaves, h.headers, h.messages, h.channels⟩

private theorem MapsVerify.read {m : Maps} (h : MapsVerify env mmrRootAt sync m) (x : Access) :
    LookUpKnown env mmrRootAt sync (.tryLock x) (some (x.read m)) := by
  cases x with
  | firstMsgRoot =>
    intro e he
    exact h.messages e.1 e.2 (Std.TreeMap.mem_toList_iff_getElem?_eq_some.1 (List.mem_of_head? (Option.some.inj he)))
  | getMsgRootChannel root => exact fun p hp => h.channels root p (Option.some.inj hp)
  | getParaHeader root => exact fun p hp => h.headers root p (Option.some.inj hp)
  | beefyEntries root =>
    intro es hes e he
    obtain rfl := Option.some.inj hes
    obtain ⟨y, hy, rfl⟩ := List.mem_map.1 he
    exact h.leaves y.1 y.2 (Std.TreeMap.mem_toList_iff_getElem?_eq_some.1 (List.mem_filter.1 hy).1)
  | _ => trivial

private theorem LookUpKnown.busy (x : Access) : LookUpKnown env mmrRootAt sync (.tryLock x) none := by
  cases x with
  | firstMsgRoot => intro e he; cases he
  | getMsgRootChannel root => intro p hp; cases hp
  | getParaHeader root => intro p hp; cases hp
  | beefyEntries root => intro es hes; cases hes
  | _ => trivial

/-- What the tasks may rely on. -/
def PieceKnown (env : Externals) (mmrRootAt msgRootAt : H256 → H256) (sync : Prop) (b : Block) (q : Query)
    (a : Answer q) : TaskId → Prop
  | .relay => RelayKnown env mmrRootAt sync b q a
  | .para => ParaKnown env msgRootAt q a
  | .generator => LookUpKnown env mmrRootAt sync q a

def pieceSpec (env : Externals) (mmrRootAt msgRootAt : H256 → H256) (sync : Prop) :
    Machine.Spec TaskId Shared Block Answer Failure where
  inv s := MapsVerify env mmrRootAt sync s.maps
  loc _ _ _ _ := True
  known i b q a := PieceKnown env mmrRootAt msgRootAt sync b q a i
  asked _ _ _ := PieceAsked env mmrRootAt sync
  post _ _ _ _ := True

/-- The runs: the nodes are honest, and perhaps the relay collector keeps up with its node. -/
def HonestRun (env : Externals) (mmrRootAt msgRootAt : H256 → H256) (sync : Prop) (s : State) (e : Event) : Prop :=
  HonestNodes env mmrRootAt msgRootAt s e ∧ (sync → InSync mmrRootAt s e)

private theorem relayKnown_of_request {s : State} {b : Block} {h : Hist Answer} {p : Code Unit}
    (hi : s.tasks .relay = .running b h p) {r : Request} {a : Option r.Result}
    (hc : HonestRun env mmrRootAt msgRootAt sync s (.answer .relay (.request r) a)) :
    RelayKnown env mmrRootAt sync b (.request r) a := by
  obtain ⟨hnode, hsync⟩ := hc
  cases r with
  | mmrRoot block mmrId =>
    cases block with
    | none =>
      intro hs root hroot
      rw [← hsync hs ⟨root, hroot⟩ b h p hi]
      exact (hnode _ hroot).1 root rfl
    | some block => trivial
  | generateProof n block mmrId =>
    cases block with
    | none => trivial
    | some block =>
      intro q hq
      obtain ⟨hfrom, hsingle⟩ := hnode _ hq
      obtain ⟨hblock, hverifies⟩ := hfrom q rfl
      exact ⟨hblock, hverifies, hsingle q rfl⟩
  | getParaHeadsProof block id => exact fun q hq => (hnode _ hq).2 q rfl
  | _ => trivial

private theorem pieceKnown_of_request {s : State} {i : TaskId} {b : Block} {h : Hist Answer} {p : Code Unit}
    (hi : s.tasks i = .running b h p) {r : Request} {a : Option r.Result}
    (hc : HonestRun env mmrRootAt msgRootAt sync s (.answer i (.request r) a)) :
    PieceKnown env mmrRootAt msgRootAt sync b (.request r) a i := by
  cases i with
  | relay => exact relayKnown_of_request hi hc
  | para => exact hc.1
  | generator => trivial

/-- Only the generator relies on lookups. -/
private theorem pieceKnown_of_lookUp {b : Block} {x : Access} {a : Option x.Result}
    (ha : LookUpKnown env mmrRootAt sync (.tryLock x) a) (i : TaskId) :
    PieceKnown env mmrRootAt msgRootAt sync b (.tryLock x) a i := by
  cases i with
  | relay => trivial
  | para => trivial
  | generator => exact ha

theorem pieceSpec_sound (env : Externals) (mmrRootAt msgRootAt : H256 → H256) (sync : Prop) :
    (pieceSpec env mmrRootAt msgRootAt sync).Sound (machine env) (HonestRun env mmrRootAt msgRootAt sync) where
  body i b := by
    cases i with
    | relay => exact collectRelayData_pieces b
    | para => exact collectParaData_pieces b
    | generator => exact generateXcmpProof_pieces
  start _ _ _ _ := trivial
  answer s i b h q k a shared hi hinv _ hasked hc hh := by
    cases handled_of_handle hh with
    | request r a => exact ⟨hinv, trivial, pieceKnown_of_request hi hc⟩
    | busy x => exact ⟨hinv, trivial, pieceKnown_of_lookUp (LookUpKnown.busy x) i⟩
    | locked x => exact ⟨hinv.write hasked, trivial, pieceKnown_of_lookUp (hinv.read x) i⟩
  other _ _ _ _ _ _ _ _ _ _ _ _ _ _ := trivial
  world _ _ hinv := ⟨hinv, fun _ _ _ _ => trivial⟩

/-! ### The verdict -/

/-- The stages of every submitted proof pass on their own, and fit together. -/
theorem stagesVerify_of_submitting {best : H256} {s : State}
    (h : Reaches (machine env).step (HonestRun env mmrRootAt msgRootAt sync) (boot best) s) {p : XcmpProof}
    {root : H256} (hp : submitting s = some (p, root)) :
    StagesVerify env mmrRootAt sync p root ∧ Linked env p := by
  have hempty : MapsVerify env mmrRootAt sync Maps.empty :=
    ⟨by simp [Maps.empty], by simp [Maps.empty], by simp [Maps.empty], by simp [Maps.empty]⟩
  have hempty' : KeysLink env Maps.empty := ⟨by simp [Maps.empty], by simp [Maps.empty]⟩
  obtain ⟨b, hist, k, hgen⟩ := submitting_eq_some hp
  have hs := (pieceSpec_sound env mmrRootAt msgRootAt sync).holds ⟨.empty, best⟩ hempty h
  have hs' := (linkSpec_sound env).holds ⟨.empty, best⟩ hempty' (h.mono fun _ _ _ => trivial)
  exact ⟨(hs.running .generator b hist _ hgen).1.1, (hs'.running .generator b hist _ hgen).1.1⟩

/-- What the pallet says to stages that pass on their own and fit together: two checks are left. -/
theorem StagesVerify.verdict {p : XcmpProof} {root : H256} (h : StagesVerify env mmrRootAt sync p root)
    (hlink : Linked env p) (st : Storage) (who : Bytes) :
    XcmpPrototype.submitXcmpProof env st (.signed who) p root =
      if st.seenBeefyRoots.contains root = false then .error (.error .xcmpBeefyRootTargetedNeverSeen)
      else if env.verifyLeavesProof root p.stage1.2 p.stage1.1 = false then
        .error (.error .xcmpStage1ProofDoesntVerify)
      else .ok () := by
  obtain ⟨blob, bs, leaf, rest, hleaves, hdecode, hextra⟩ := hlink.leaf
  obtain rfl : bs = [] := by
    have hlen := h.single
    rw [hleaves, List.length_cons] at hlen
    exact List.eq_nil_of_length_eq_zero (by omega)
  by_cases hseen : st.seenBeefyRoots.contains root = false
  · rw [if_pos hseen]
    simp only [XcmpPrototype.submitXcmpProof, ensureSigned, hseen, ensure]
    rfl
  rw [if_neg hseen]
  rw [Bool.not_eq_false] at hseen
  by_cases hverify : env.verifyLeavesProof root p.stage1.2 p.stage1.1 = false
  · rw [if_pos hverify]
    simp only [XcmpPrototype.submitXcmpProof, ensureSigned, hseen, hverify, ensure]
    rfl
  rw [if_neg hverify]
  rw [Bool.not_eq_false] at hverify
  refine submitXcmpProof_eq_ok.2 ⟨blob, leaf, rest, ?_⟩
  exact
    { signed := ⟨who, rfl⟩
      seen := hseen
      stage1 := by rw [← hleaves]; exact hverify
      leaves := hleaves
      decodes := hdecode
      leafExtra := hextra
      count2 := h.stage2.count
      index2 := h.stage2.index
      stage2 := h.stage2.verifies
      extracted := extractXcmpChannelRoot_eq_ok.2 hlink.head
      count3 := h.stage3.count
      index3 := h.stage3.index
      stage3 := h.stage3.verifies
      stage4 := h.stage4 }

/-- With honest nodes, in every interleaving: the BEEFY leaf of a proof that the relayer is about to submit is in the
mountain range of some block, and the pallet rejects the proof from a signed origin only if it has not seen the root,
or if the root is not the one of that range. -/
theorem submitting_verdict (env : Externals) (mmrRootAt msgRootAt : H256 → H256) (best : H256) (s : State)
    (h : Reaches (machine env).step (HonestNodes env mmrRootAt msgRootAt) (boot best) s) (p : XcmpProof) (root : H256)
    (hp : submitting s = some (p, root)) :
    (∃ block, env.verifyLeavesProof (mmrRootAt block) p.stage1.2 p.stage1.1 = true) ∧
      ∀ (st : Storage) (who : Bytes),
        XcmpPrototype.submitXcmpProof env st (.signed who) p root =
          if st.seenBeefyRoots.contains root = false then .error (.error .xcmpBeefyRootTargetedNeverSeen)
          else if env.verifyLeavesProof root p.stage1.2 p.stage1.1 = false then
            .error (.error .xcmpStage1ProofDoesntVerify)
          else .ok () := by
  have hrun : Reaches (machine env).step (HonestRun env mmrRootAt msgRootAt False) (boot best) s :=
    h.mono fun _ _ hc => ⟨hc, False.elim⟩
  obtain ⟨hstages, hlink⟩ := stagesVerify_of_submitting hrun hp
  obtain ⟨block, hblock, -⟩ := hstages.stage1
  exact ⟨⟨block, hblock⟩, hstages.verdict hlink⟩

/-- In synchronous runs one check is left, and the receiver passes it once one of its blocks has noted the root. -/
theorem accepted_iff_of_submitting {best : H256} {s : State}
    (h : Reaches (machine env).step (HonestRun env mmrRootAt msgRootAt True) (boot best) s) {p : XcmpProof}
    {root : H256} (hp : submitting s = some (p, root)) (hashOf : Bytes → H256) (cfg : Config) (es : List PalletEvent)
    (who : Bytes) :
    XcmpPrototype.submitXcmpProof env (palletRun env hashOf cfg es) (.signed who) p root = .ok () ↔
      ∃ b ∈ blocks es, b.root = root := by
  obtain ⟨hstages, hlink⟩ := stagesVerify_of_submitting h hp
  obtain ⟨block, hblock, hroot⟩ := hstages.stage1
  rw [← hroot trivial] at hblock
  rw [hstages.verdict hlink, ← (seen_palletRun env hashOf cfg es).contains_iff, hblock]
  cases (palletRun env hashOf cfg es).seenBeefyRoots.contains root <;> simp

/-! ### Chains with two leaves -/

/-- What two nodes have to say about the second blocks of their chains, with the leaves of the first ones. -/
structure Pieces where
  beefyRoot : H256
  firstBeefyLeaf : Vec UInt8
  beefyLeaf : Vec UInt8
  head : ParaMerkleProof
  msgRoot : H256
  firstMessage : Vec UInt8
  message : Vec UInt8
  channel : ChannelMerkleProof

namespace Pieces

variable (x : Pieces)

def relayNode : Nodes := fun best r => match r with
  | .mmrRoot .. => some (some x.beefyRoot)
  | .generateProof n block _ =>
    some (if n = 2 then some (leafProof ⟨block.getD best, 2⟩ 1 (keccak256 x.firstBeefyLeaf.1) x.beefyLeaf) else none)
  | .getParaHeadsProof .. => some (some x.head)
  | r => Relayer.relayNode best r

/-- Of the first block only the messages are asked for, by the main loop and at the best block. -/
def paraNode : Nodes := fun best r => match r with
  | .mmrRoot _ mmrId => some (if mmrId = some receiverChannelId then some x.msgRoot else none)
  | .generateProof n block mmrId =>
    some (if block = none ∧ n = 1 then some (leafProof ⟨best, 2⟩ 0 (keccak256 x.message.1) x.firstMessage)
      else if n = 2 ∧ mmrId = some receiverChannelId then
        some (leafProof ⟨block.getD best, 2⟩ 1 (keccak256 x.firstMessage.1) x.message)
      else none)
  | .getXcmpChannelsProof .. => some (some x.channel)
  | r => Relayer.relayNode best r

/-- Both collectors have seen the second block of their chain. -/
def collected : State :=
  relayer.perform (freeReply x.paraNode)
    (relayer.perform (freeReply x.relayNode) (boot H256.zero) .relay ⟨.repeatByte 0x10, 2⟩) .para ⟨.repeatByte 0x20, 2⟩

/-- The generator is about to submit what was collected. -/
def assembled : State :=
  relayer.launch isSubmission (freeReply x.paraNode) x.collected .generator ⟨.repeatByte 0x20, 2⟩

/-- The way there is a run whose steps meet a condition on answers, if the answers of the two nodes do. -/
theorem reaches_assembled {C : State → Event → Prop} (hstart : ∀ s i b, C s (.start i b))
    (hrelay : ∀ s q, C s (.answer .relay q (freeReply x.relayNode s.shared q).1))
    (hpara : ∀ s q, C s (.answer .para q (freeReply x.paraNode s.shared q).1))
    (hgenerator : ∀ s q a, C s (.answer .generator q a)) (hfinish : ∀ s i, C s (.finish i)) :
    Reaches relayer.step C (boot H256.zero) x.assembled := by
  have h1 : Reaches relayer.step C (boot H256.zero)
      (relayer.perform (freeReply x.relayNode) (boot H256.zero) .relay ⟨.repeatByte 0x10, 2⟩) :=
    reaches_perform_free x.relayNode _ rfl (hstart _ _ _) hrelay fun s => hfinish s _
  have h2 : Reaches relayer.step C
      (relayer.perform (freeReply x.relayNode) (boot H256.zero) .relay ⟨.repeatByte 0x10, 2⟩) x.collected :=
    reaches_perform_free x.paraNode _ (Machine.perform_tasks_of_ne (by decide)) (hstart _ _ _) hpara fun s =>
      hfinish s _
  have hidle : x.collected.tasks .generator = .idle := by
    rw [collected, Machine.perform_tasks_of_ne (by decide), Machine.perform_tasks_of_ne (by decide)]
    rfl
  have h3 : Reaches relayer.step C x.collected x.assembled :=
    reaches_launch_free isSubmission x.paraNode _ hidle (hstart _ _ _) fun s q => hgenerator s q _
  exact (h1.trans h2).trans h3

end Pieces

/-- The pieces of the smallest proof. -/
def solePieces : Pieces where
  beefyRoot := SoleProof.honest.beefyRoot
  firstBeefyLeaf :=
    ⟨BeefyMmrLeaf.codec.encode SoleProof.honest.firstLeaf, by rw [BeefyMmrLeaf.length_encode]; decide⟩
  beefyLeaf := ⟨BeefyMmrLeaf.codec.encode SoleProof.honest.leaf, by rw [BeefyMmrLeaf.length_encode]; decide⟩
  head := SoleProof.honest.proof.stage2
  msgRoot := SoleProof.honest.channelRoot
  firstMessage := ⟨MmrLeaf.codec.encode firstMessage, by decide +kernel⟩
  message := ⟨MmrLeaf.codec.encode secondMessage, by decide +kernel⟩
  channel := SoleProof.honest.proof.stage3

private theorem honest_relayNode (s : State) (q : Query) :
    HonestNodes (.documented xcmrRoot) (fun _ => solePieces.beefyRoot) (fun _ => solePieces.msgRoot) s
      (.answer .relay q (freeReply solePieces.relayNode s.shared q).1) := by
  cases q with
  | tryLock x => trivial
  | request r =>
    intro x hx
    cases r with
    | mmrRoot block mmrId =>
      cases hx
      exact ⟨fun root hroot => (Option.some.inj hroot).symm, trivial⟩
    | generateProof n block mmrId =>
      cases hx
      refine ⟨fun p hp => ?_, fun p hp leaves hleaves => ?_⟩
      · obtain ⟨-, hp⟩ := Option.ite_none_right_eq_some.1 hp
        cases hp
        exact ⟨rfl, verifies_leafProof _ _ _⟩
      · obtain ⟨-, hp⟩ := Option.ite_none_right_eq_some.1 hp
        cases hp
        rw [(decode_leafProof _ _ _ _).1, Option.some.injEq] at hleaves
        rw [← hleaves]
        exact Nat.le_refl 1
    | getParaHeadsProof block id =>
      cases hx
      refine ⟨trivial, fun p hp => ?_⟩
      cases hp
      exact ⟨by decide, by decide, BinaryMerkle.verifyProof_sole keccak rfl⟩
    | _ => exact ⟨trivial, trivial⟩

private theorem honest_paraNode (s : State) (q : Query) :
    HonestNodes (.documented xcmrRoot) (fun _ => solePieces.beefyRoot) (fun _ => solePieces.msgRoot) s
      (.answer .para q (freeReply solePieces.paraNode s.shared q).1) := by
  cases q with
  | tryLock x => trivial
  | request r =>
    intro x hx
    cases r with
    | mmrRoot block mmrId =>
      cases hx
      cases block with
      | none => trivial
      | some block =>
        rintro rfl root hroot
        exact (Option.some.inj hroot).symm
    | generateProof n block mmrId =>
      cases hx
      cases block with
      | none => trivial
      | some block =>
        rintro - p hp
        rw [if_neg fun hnone => Option.some_ne_none _ hnone.1] at hp
        obtain ⟨-, hp⟩ := Option.ite_none_right_eq_some.1 hp
        cases hp
        exact verifies_leafProof _ _ _
    | getXcmpChannelsProof block channelId =>
      cases hx
      rintro - p hp
      cases hp
      exact ⟨⟨by decide, by decide, BinaryMerkle.verifyProof_sole keccak rfl⟩, rfl⟩
    | _ => trivial

theorem submitting_verdict_sole :
    ∃ p root, submitting solePieces.assembled = some (p, root) ∧
      ∀ (st : Storage) (who : Bytes),
        XcmpPrototype.submitXcmpProof (.documented xcmrRoot) st (.signed who) p root =
          if st.seenBeefyRoots.contains root = false then .error (.error .xcmpBeefyRootTargetedNeverSeen)
          else if (Externals.documented xcmrRoot).verifyLeavesProof root p.stage1.2 p.stage1.1 = false then
            .error (.error .xcmpStage1ProofDoesntVerify)
          else .ok () := by
  have hsome : (submitting solePieces.assembled).isSome = true := by decide +kernel
  obtain ⟨⟨p, root⟩, hp⟩ := Option.isSome_iff_exists.1 hsome
  refine ⟨p, root, hp, (submitting_verdict (.documented xcmrRoot) (fun _ => solePieces.beefyRoot)
    (fun _ => solePieces.msgRoot) H256.zero solePieces.assembled ?_ p root hp).2⟩
  exact solePieces.reaches_assembled (fun _ _ _ => trivial) honest_relayNode honest_paraNode
    (fun _ _ _ => trivial) fun _ _ => trivial

end XcmpPrototype.Relayer
