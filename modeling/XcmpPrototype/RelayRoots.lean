import XcmpPrototype.Linkage

/-!
# The stored roots of the relay chain

The relay collector asks for the MMR root without a block, which the node answers for its best block, and then for a
proof at the block of its loop.  The best block may be another one by then.  The two belong together in every run in
which the best block has the same root as the block of the loop whenever the first request is answered
(`stored_roots_match`), and not in general (`stored_roots_overtaken`).
-/

open Scale

namespace XcmpPrototype.Relayer

variable {env : Externals} {mmrRootAt : H256 → H256}

/-- The leaves and the proof decode, and verify against the root. -/
def Verifies (env : Externals) (proof : LeavesProof) (root : H256) : Prop :=
  ∃ leaves p, decodeLeaves proof.leaves = some leaves ∧ decodeProof proof.proof = some p ∧
    env.verifyLeavesProof root leaves p = true

/-- Root and proof are those of one block. -/
def SameBlock (env : Externals) (mmrRootAt : H256 → H256) (root : H256) (proof : LeavesProof) : Prop :=
  root = mmrRootAt proof.blockHash ∧ Verifies env proof root

/-! ### The node and the runs -/

/-- A node answers from the state of the given block, or else of its best block, in which the root is `mmrRootAt`. -/
def AnswersFrom (env : Externals) (mmrRootAt : H256 → H256) (best : H256) : (r : Request) → r.Result → Prop
  | .mmrRoot block _, a => ∀ root, a = some root → root = mmrRootAt (block.getD best)
  | .generateProof _ block _, a => ∀ p, a = some p →
      p.blockHash = block.getD best ∧ Verifies env p (mmrRootAt (block.getD best))
  | _, _ => True

/-- Requests of the relay collector that do not fail are answered like this. -/
def NodeAnswers (env : Externals) (mmrRootAt : H256 → H256) (s : State) : Event → Prop
  | .answer .relay (.request r) a => ∀ x, a = some x → AnswersFrom env mmrRootAt s.shared.relayBest r x
  | _ => True

/-- When the node answers with a root that is asked for without a block, its best block has the root of the block of the
loop. -/
def InSync (mmrRootAt : H256 → H256) (s : State) : Event → Prop
  | .answer .relay (.request (.mmrRoot none _)) a => (∃ root, a = some (some root)) →
      ∀ b h p, s.tasks .relay = .running b h p → mmrRootAt s.shared.relayBest = mmrRootAt b.hash
  | _ => True

/-! ### Entries belong together -/

/-- What the relay collector knows of the answers in a synchronous run. -/
def RootKnown (env : Externals) (mmrRootAt : H256 → H256) (b : Block) : (q : Query) → Answer q → Prop
  | .request (.mmrRoot none _), a => ∀ root, a = some (some root) → root = mmrRootAt b.hash
  | .request (.generateProof _ (some block) _), a => ∀ p, a = some (some p) →
      p.blockHash = block ∧ Verifies env p (mmrRootAt block)
  | _, _ => True

def RootAsked (env : Externals) (mmrRootAt : H256 → H256) : Query → Prop
  | .tryLock (.insertLeaf _ _ root proof) => SameBlock env mmrRootAt root proof
  | _ => True

private theorem collectRelayData_sameBlock (b : Block) :
    Prog.wp (RootKnown env mmrRootAt b) (fun _ => RootAsked env mmrRootAt) [] (collectRelayData env b)
      fun _ _ => True := by
  simp only [collectRelayData, request, tryLock, orError, first, generateMmrProof, Prog.wp_bind, Prog.wp_query,
    Prog.wp_pure, Prog.onOk_ok, Prog.wp_ofOption, Prog.wp_check, Prog.onOk_error, RootAsked, RootKnown, implies_true,
    and_true, true_and, forall_const]
  intro optRoot hknown root hroot _ _ _ optProof hknown' proof hproof _ _ _ _ _ _
  have hr := hknown root (Option.join_eq_some_iff.1 hroot)
  obtain ⟨hblock, hverifies⟩ := hknown' proof (Option.join_eq_some_iff.1 hproof)
  exact ⟨by rw [hr, hblock], by rw [hr]; exact hverifies⟩

private theorem rootAsked_of_ne_relay {i : TaskId} (hi : i ≠ .relay) {q : Query} (hq : AskedBy i q) :
    RootAsked env mmrRootAt q := by
  cases q with
  | request r => trivial
  | tryLock x =>
    cases x with
    | insertLeaf headerRoot n root proof => exact absurd hq.symm hi
    | _ => trivial

def RootsMatch (env : Externals) (mmrRootAt : H256 → H256) (m : Maps) : Prop :=
  ∀ (k : H256 × UInt32) (v : H256 × LeavesProof), m.leavesBeefyMmrMap[k]? = some v → SameBlock env mmrRootAt v.1 v.2

def rootSpec (env : Externals) (mmrRootAt : H256 → H256) : Machine.Spec TaskId Shared Block Answer Failure where
  inv s := RootsMatch env mmrRootAt s.maps
  loc _ _ _ _ := True
  known i b q a := i = .relay → RootKnown env mmrRootAt b q a
  asked _ _ _ := RootAsked env mmrRootAt
  post _ _ _ _ := True

/-- The answers of the node in a synchronous run. -/
private theorem rootKnown_of_answer {s : State} {b : Block} {h : Hist Answer} {p : Code Unit}
    (hi : s.tasks .relay = .running b h p) {q : Query} {a : Answer q}
    (hnode : NodeAnswers env mmrRootAt s (.answer .relay q a)) (hsync : InSync mmrRootAt s (.answer .relay q a)) :
    RootKnown env mmrRootAt b q a := by
  unfold RootKnown
  split
  · intro root hroot
    rw [← hsync ⟨root, hroot⟩ b h p hi]
    exact hnode _ hroot root rfl
  · intro proof hproof
    exact hnode _ hproof proof rfl
  · trivial

private theorem RootsMatch.write {m : Maps} (h : RootsMatch env mmrRootAt m) {x : Access}
    (hx : RootAsked env mmrRootAt (.tryLock x)) : RootsMatch env mmrRootAt (x.write m) := by
  cases x with
  | insertLeaf headerRoot n root proof => exact forall_getElem?_insert h hx
  | _ => exact h

theorem rootSpec_sound (env : Externals) (mmrRootAt : H256 → H256) :
    (rootSpec env mmrRootAt).Sound (machine env) fun s e => NodeAnswers env mmrRootAt s e ∧ InSync mmrRootAt s e where
  body i b := by
    by_cases hi : i = .relay
    · subst hi
      exact Prog.wp_mono_asked (fun _ _ h => h rfl) (fun _ _ h => h) (collectRelayData_sameBlock b)
    · exact Prog.wp_mono_asked (fun _ _ _ => trivial) (fun _ _ => rootAsked_of_ne_relay hi) (body_askedBy env i b)
  start _ _ _ _ := trivial
  answer s i b h q k a shared hi hinv _ hasked hc hh := by
    have hknown : i = .relay → RootKnown env mmrRootAt b q a := by
      rintro rfl
      exact rootKnown_of_answer hi hc.1 hc.2
    cases handled_of_handle hh with
    | request r a => exact ⟨hinv, trivial, hknown⟩
    | busy x => exact ⟨hinv, trivial, hknown⟩
    | locked x => exact ⟨hinv.write hasked, trivial, hknown⟩
  other _ _ _ _ _ _ _ _ _ _ _ _ _ _ := trivial
  world _ _ hinv := ⟨hinv, fun _ _ _ _ => trivial⟩

/-- In every run in which the node answers from the states of its blocks, and its best block has the root of the block
of the loop whenever it answers with a root without a block, all entries hold a root and a proof of the same block,
and the proof verifies against the root. -/
theorem stored_roots_match (env : Externals) (mmrRootAt : H256 → H256) (best : H256) (s : State)
    (h : Reaches (machine env).step (fun s e => NodeAnswers env mmrRootAt s e ∧ InSync mmrRootAt s e) (boot best) s)
    (k : H256 × UInt32) (root : H256) (proof : LeavesProof)
    (hk : s.shared.maps.leavesBeefyMmrMap[k]? = some (root, proof)) :
    root = mmrRootAt proof.blockHash ∧ Verifies env proof root := by
  have hempty : RootsMatch env mmrRootAt Maps.empty := by simp [RootsMatch, Maps.empty]
  exact ((rootSpec_sound env mmrRootAt).holds ⟨.empty, best⟩ hempty h).inv k (root, proof) hk

/-! ### A range of two leaves -/

theorem decode_leafProof (b : Block) (index : UInt64) (other : H256) (leaf : Vec UInt8) :
    decodeLeaves (leafProof b index other leaf).leaves = some [leaf.1] ∧
      decodeProof (leafProof b index other leaf).proof = some ⟨[index], 2, [other]⟩ := by
  have hleaves := opaqueLeaves.decode_encode ⟨[leaf], by simp⟩ []
  have hproof := MmrProof.codec.decode_encode (⟨[index], by simp⟩, 2, ⟨[other], by simp⟩) []
  rw [List.append_nil] at hleaves hproof
  simp only [decodeLeaves, decodeProof, leafProof, hleaves, hproof, Option.map_some, List.map_cons, List.map_nil,
    and_self]

theorem verifies_leafProof_iff {b : Block} {index : UInt64} {other : H256} {leaf : Vec UInt8} {root : H256} :
    Verifies env (leafProof b index other leaf) root ↔
      env.verifyLeavesProof root [leaf.1] ⟨[index], 2, [other]⟩ = true := by
  obtain ⟨hleaves, hproof⟩ := decode_leafProof b index other leaf
  simp only [Verifies, hleaves, hproof, Option.some.injEq, existsAndEq, true_and]

theorem verifies_leafProof (b : Block) (first : Bytes) (leaf : Vec UInt8) :
    Verifies (.documented xcmrRoot) (leafProof b 1 (keccak256 first) leaf) (Mmr.mmrRoot keccak [first, leaf.1]) :=
  verifies_leafProof_iff.2 (Mmr.verifyLeavesProof_second keccak first leaf.1)

/-- The leaf of the block before `relayBlock`. -/
def earlierLeafBytes : Bytes := BeefyMmrLeaf.codec.encode { relayLeaf with parentNumberAndHash := (3, H256.zero) }

def relayRoot : H256 := Mmr.mmrRoot keccak [earlierLeafBytes, relayLeafBytes.1]

/-- In `relayBlock` there are two leaves; all other blocks have another root. -/
def rootAt (h : H256) : H256 := if h = relayBlock.hash then relayRoot else .repeatByte 0x13

def relayProof : LeavesProof := leafProof relayBlock 1 (keccak256 earlierLeafBytes) relayLeafBytes

/-- A node of this chain, which keeps the state of `relayBlock` only. -/
def chainNode : Nodes := fun best r => match r with
  | .mmrRoot block _ => some (some (rootAt (block.getD best)))
  | .generateProof _ block _ => some (if block.getD best = relayBlock.hash then some relayProof else none)
  | r => relayNode best r

private theorem chainNode_answers (best : H256) (r : Request) (x : r.Result) (h : chainNode best r = some x) :
    AnswersFrom (.documented xcmrRoot) rootAt best r x := by
  cases r with
  | mmrRoot block mmrId =>
    intro root hroot
    subst hroot
    exact (Option.some.inj (Option.some.inj h)).symm
  | generateProof n block mmrId =>
    intro p hp
    subst hp
    obtain ⟨hblock, hp⟩ := Option.ite_none_right_eq_some.1 (Option.some.inj h)
    obtain rfl := Option.some.inj hp
    rw [hblock, rootAt, if_pos rfl]
    exact ⟨rfl, verifies_leafProof _ _ _⟩
  | _ => trivial

/-- The collector has seen `relayBlock` while `best` was the best block. -/
def seen (best : H256) : State := relayer.perform (freeReply chainNode) (boot best) .relay relayBlock

private theorem nodeAnswers_chainNode (s : State) (q : Query) :
    NodeAnswers (.documented xcmrRoot) rootAt s (.answer .relay q (freeReply chainNode s.shared q).1) := by
  cases q with
  | request r => exact fun x hx => chainNode_answers s.shared.relayBest r x hx
  | tryLock x => trivial

private theorem inSync_relayBlock {s : State} {h : Hist Answer} {p : Code Unit} (q : Query) (a : Answer q)
    (hbest : s.shared.relayBest = relayBlock.hash) (hi : s.tasks .relay = .running relayBlock h p) :
    InSync rootAt s (.answer .relay q a) := by
  unfold InSync
  split
  · intro _ b h' p' hb
    rw [hi] at hb
    cases hb
    rw [hbest]
  · trivial

theorem stored_roots_match_seen :
    (seen relayBlock.hash).shared.maps.leavesBeefyMmrMap[(relayLeaf.leafExtra, relayBlock.number)]? =
        some (relayRoot, relayProof) ∧
      relayRoot = rootAt relayProof.blockHash ∧ Verifies (.documented xcmrRoot) relayProof relayRoot := by
  have hk : (seen relayBlock.hash).shared.maps.leavesBeefyMmrMap[(relayLeaf.leafExtra, relayBlock.number)]? =
      some (relayRoot, relayProof) := by decide +kernel
  refine ⟨hk, stored_roots_match _ rootAt relayBlock.hash (seen relayBlock.hash) ?_ _ _ _ hk⟩
  refine Machine.reaches_perform (J := fun s => s.relayBest = relayBlock.hash) ?_ ?_ rfl rfl ⟨trivial, trivial⟩
    fun _ => ⟨trivial, trivial⟩
  · intro s q hs
    refine ⟨handle_freeReply chainNode s q, ?_⟩
    cases q <;> exact hs
  · intro s h q k hs hi
    exact ⟨nodeAnswers_chainNode s q, inSync_relayBlock q _ hs hi⟩

/-- The best block was another one when the node was asked for its root. -/
theorem stored_roots_overtaken :
    Reaches relayer.step (NodeAnswers (.documented xcmrRoot) rootAt) (boot (.repeatByte 0x40))
        (seen (.repeatByte 0x40)) ∧
      (seen (.repeatByte 0x40)).shared.maps.leavesBeefyMmrMap[(relayLeaf.leafExtra, relayBlock.number)]? =
        some (.repeatByte 0x13, relayProof) ∧
      H256.repeatByte 0x13 ≠ rootAt relayProof.blockHash ∧
      ¬ Verifies (.documented xcmrRoot) relayProof (.repeatByte 0x13) := by
  refine ⟨?_, by decide +kernel, by decide +kernel, verifies_leafProof_iff.not.2 (by decide +kernel)⟩
  exact reaches_perform_free chainNode relayBlock rfl trivial nodeAnswers_chainNode fun _ => trivial

end XcmpPrototype.Relayer
