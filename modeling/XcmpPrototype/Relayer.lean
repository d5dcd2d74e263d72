import XcmpPrototype.Interaction
import XcmpPrototype.SoleProof

/-!
# The relayer

Three tasks share five maps.  One collects BEEFY leaves and parachain heads from the relay chain, block by block; one
collects message roots, message proofs and channel proofs from the sending parachain; one assembles a proof from the
maps and submits it.  Every access to a map is a `try_lock` that may fail, every request to a node may fail, and between
any two of them the other tasks may move.

A loop of the source is a body that starts again with the next block.  An error ends a collector for good; the loop
around `generateXcmpProof` ignores its result.  What is only logged is left out.
-/

open Scale

namespace XcmpPrototype.Relayer

/-! ### The maps -/

/-- `mmr_rpc::LeavesProof`: the block it was generated at, and encoded leaves and proof. -/
structure LeavesProof where
  blockHash : H256
  leaves : Bytes
  proof : Bytes
  deriving DecidableEq

/-- Pairs in lexicographic order. -/
def compareLeafKey : H256 × UInt32 → H256 × UInt32 → Ordering := compareLex (compareOn Prod.fst) (compareOn Prod.snd)

instance : Std.TransCmp compareLeafKey :=
  inferInstanceAs (Std.TransCmp (compareLex (compareOn Prod.fst) (compareOn Prod.snd)))

instance : Std.LawfulEqCmp compareLeafKey where
  eq_of_compare {a b} h := by
    obtain ⟨h1, h2⟩ := compareLex_eq_eq.1 h
    exact Prod.ext (Std.LawfulEqOrd.eq_of_compare h1) (Std.LawfulEqOrd.eq_of_compare h2)

structure Maps where
  leavesBeefyMmrMap : Std.TreeMap (H256 × UInt32) (H256 × LeavesProof) compareLeafKey
  paraHeadersMap : Std.TreeMap H256 ParaMerkleProof
  msgRootMap : Std.TreeMap H256 LeavesProof
  msgRootChannelMerkleMap : Std.TreeMap H256 ChannelMerkleProof
  channelRootProofMap : Std.TreeMap H256 ChannelMerkleProof

def Maps.empty : Maps := ⟨∅, ∅, ∅, ∅, ∅⟩

/-- What is done with a map while it is locked. -/
inductive Access where
  | insertLeaf (headerRoot : H256) (blockNumber : UInt32) (beefyRoot : H256) (proof : LeavesProof)
  | insertParaHeader (root : H256) (proof : ParaMerkleProof)
  | insertMsgRoot (root : H256) (proof : LeavesProof)
  | insertChannelRootProof (root : H256) (proof : ChannelMerkleProof)
  | insertMsgRootChannel (root : H256) (proof : ChannelMerkleProof)
  | containsMsgRoot (root : H256)
  | containsMsgRootChannel (root : H256)
  | firstMsgRoot
  | getMsgRootChannel (root : H256)
  | getParaHeader (root : H256)
  | beefyEntries (headerRoot : H256)
  | removeMsgRoot (root : H256)
  deriving DecidableEq

namespace Access

@[reducible] def Result : Access → Type
  | containsMsgRoot _ | containsMsgRootChannel _ => Bool
  | firstMsgRoot => Option (H256 × LeavesProof)
  | getMsgRootChannel _ => Option ChannelMerkleProof
  | getParaHeader _ => Option ParaMerkleProof
  | beefyEntries _ => List (H256 × LeavesProof)
  | removeMsgRoot _ => Option LeavesProof
  | _ => Unit

def read (m : Maps) : (x : Access) → x.Result
  | containsMsgRoot root => m.msgRootMap.contains root
  | containsMsgRootChannel root => m.msgRootChannelMerkleMap.contains root
  | firstMsgRoot => m.msgRootMap.toList.head?
  | getMsgRootChannel root => m.msgRootChannelMerkleMap[root]?
  | getParaHeader root => m.paraHeadersMap[root]?
  | beefyEntries headerRoot => (m.leavesBeefyMmrMap.toList.filter fun x => x.1.1 = headerRoot).map Prod.snd
  | removeMsgRoot root => m.msgRootMap[root]?
  | insertLeaf .. | insertParaHeader .. | insertMsgRoot .. | insertChannelRootProof .. | insertMsgRootChannel .. => ()

def write (m : Maps) : Access → Maps
  | insertLeaf headerRoot n beefyRoot proof =>
    { m with leavesBeefyMmrMap := m.leavesBeefyMmrMap.insert (headerRoot, n) (beefyRoot, proof) }
  | insertParaHeader root proof => { m with paraHeadersMap := m.paraHeadersMap.insert root proof }
  | insertMsgRoot root proof => { m with msgRootMap := m.msgRootMap.insert root proof }
  | insertChannelRootProof root proof => { m with channelRootProofMap := m.channelRootProofMap.insert root proof }
  | insertMsgRootChannel root proof =>
    { m with msgRootChannelMerkleMap := m.msgRootChannelMerkleMap.insert root proof }
  | removeMsgRoot root => { m with msgRootMap := m.msgRootMap.erase root }
  | _ => m

instance : (x : Access) → DecidableEq x.Result
  | containsMsgRoot _ | containsMsgRootChannel _ => inferInstanceAs (DecidableEq Bool)
  | firstMsgRoot => inferInstanceAs (DecidableEq (Option (H256 × LeavesProof)))
  | getMsgRootChannel _ => inferInstanceAs (DecidableEq (Option ChannelMerkleProof))
  | getParaHeader _ => inferInstanceAs (DecidableEq (Option ParaMerkleProof))
  | beefyEntries _ => inferInstanceAs (DecidableEq (List (H256 × LeavesProof)))
  | removeMsgRoot _ => inferInstanceAs (DecidableEq (Option LeavesProof))
  | insertLeaf .. | insertParaHeader .. | insertMsgRoot .. | insertChannelRootProof .. | insertMsgRootChannel .. =>
    inferInstanceAs (DecidableEq Unit)

end Access

/-! ### Questions of a task -/

/-- Requests to the nodes.  A task talks to one chain; without a block the node answers for its best one. -/
inductive Request where
  | blocksAtLatest
  | mmrRoot (block : Option H256) (mmrId : Option UInt64)
  | getHeader (block : Option H256)
  | generateProof (blockNumber : UInt64) (block : Option H256) (mmrId : Option UInt64)
  | getParaHeadsProof (block : H256) (id : ParaId)
  | getXcmpChannelsProof (block : H256) (channelId : UInt64)
  | runtimeApiAtLatest
  | getCurrentBeefyRoot
  | signAndSubmit (xcmpProof : XcmpProof) (beefyRoot : H256)
  | waitForInBlock
  | waitForSuccess
  deriving DecidableEq

@[reducible] def Request.Result : Request → Type
  | mmrRoot .. => Option H256
  | getHeader _ => Option Header
  | generateProof .. => Option LeavesProof
  | getParaHeadsProof .. => Option ParaMerkleProof
  | getXcmpChannelsProof .. => Option ChannelMerkleProof
  | getCurrentBeefyRoot => H256
  | blocksAtLatest | runtimeApiAtLatest | signAndSubmit .. | waitForInBlock | waitForSuccess => Unit

inductive Query where
  | request (r : Request)
  | tryLock (x : Access)
  deriving DecidableEq

/-- A request has a result or fails; a lock is taken or not. -/
@[reducible] def Answer : Query → Type
  | .request r => Option r.Result
  | .tryLock x => Option x.Result

inductive Failure where
  | error
  | panic
  deriving DecidableEq

abbrev Code := Prog Answer Failure

def request (r : Request) : Code (Option r.Result) := Prog.query (Query.request r)

def tryLock (x : Access) : Code (Option x.Result) := Prog.query (Query.tryLock x)

def orError {α : Type} (o : Option α) : Code α := Prog.ofOption .error o

/-! ### Collecting -/

structure Block where
  hash : H256
  number : UInt32
  deriving DecidableEq

def receiverChannelId : UInt64 := 0

def generateMmrProof (blockNum : UInt64) (channelId : Option UInt64) (blockHash : Option H256) : Code LeavesProof := do
  let optProof ← request (.generateProof blockNum blockHash channelId)
  orError (Option.join optProof)

def generateMmrRoot (channelId : Option UInt64) (blockHash : Option H256) : Code H256 := do
  let optRoot ← request (.mmrRoot blockHash channelId)
  orError (Option.join optRoot)

def decodeLeaves (b : Bytes) : Option (List EncodableOpaqueLeaf) :=
  (opaqueLeaves.decode b).map fun x => x.1.1.map Subtype.val

def decodeProof (b : Bytes) : Option MmrProof :=
  (MmrProof.codec.decode b).map fun x => ⟨x.1.1.1, x.1.2.1, x.1.2.2.1⟩

/-- Indexing at `0`. -/
def first (leaves : List EncodableOpaqueLeaf) : Code EncodableOpaqueLeaf := Prog.ofOption .panic leaves.head?

/-- The relayer's own reading of the channel root in a head. -/
def extractXcmpChannelRoot (env : Externals) (leaf : ParaLeaf) : Option H256 := do
  let header ← Header.codec.decode leaf.headData.1
  env.extractXcmpChannelMerkleRoot header.1.digest

/-- One turn of the loop of `collect_relay_data`. -/
def collectRelayData (env : Externals) (block : Block) : Code Unit := do
  let optRoot ← request (.mmrRoot none (some receiverChannelId))
  let root ← orError (Option.join optRoot)
  let optHeader ← request (.getHeader none)
  -- a header of another block is logged and kept
  let _rpcHeader ← orError (Option.join optHeader)
  let proof ← generateMmrProof block.number.toUInt64 (some receiverChannelId) (some block.hash)
  let beefyLeaves ← orError (decodeLeaves proof.leaves)
  let leaf ← first beefyLeaves
  let mmrLeaf ← orError (BeefyMmrLeaf.codec.decode leaf)
  let _ ← tryLock (.insertLeaf mmrLeaf.1.leafExtra block.number root proof)
  let optProof ← request (.getParaHeadsProof block.hash 1000)
  let paraMerkleProof ← orError (Option.join optProof)
  let paraHeaderRoot := (extractXcmpChannelRoot env paraMerkleProof.leaf).getD H256.zero
  Prog.check .error (paraHeaderRoot ≠ H256.zero)
  let _ ← tryLock (.insertParaHeader paraHeaderRoot paraMerkleProof)

/-- One turn of the loop of `collect_para_data`. -/
def collectParaData (block : Block) : Code Unit := do
  let msgRoot ← generateMmrRoot (some receiverChannelId) (some block.hash)
  let msgProof ← generateMmrProof block.number.toUInt64 (some receiverChannelId) (some block.hash)
  let _ ← tryLock (.insertMsgRoot msgRoot msgProof)
  let optProof ← request (.getXcmpChannelsProof block.hash receiverChannelId)
  let channelMerkleProof ← orError (Option.join optProof)
  let _ ← tryLock (.insertChannelRootProof channelMerkleProof.root channelMerkleProof)
  let rootsMatch ← tryLock (.containsMsgRoot channelMerkleProof.leaf)
  if Option.getD rootsMatch false then
    let _ ← tryLock (.insertMsgRootChannel msgRoot channelMerkleProof)
  else
    pure ()

/-! ### Assembling and submitting -/

/-- A submission that fails later than `sign_and_submit` is only logged. -/
def submitXcmpProof (xcmpProof : XcmpProof) (beefyRoot : H256) : Code Unit := do
  let txProgress ← request (.signAndSubmit xcmpProof beefyRoot)
  orError txProgress
  let txInBlock ← request .waitForInBlock
  if Option.isSome txInBlock then
    let _ ← request .waitForSuccess
  else
    pure ()

/-- The first part of `generate_xcmp_proof`: the least pending root, the proof found for it and the BEEFY root. -/
def lookUpStages : Code (H256 × XcmpProof × H256) := do
  let block ← request .blocksAtLatest
  orError block
  let entry ← tryLock .firstMsgRoot
  let stage4 ← orError (Option.join entry)
  let rootsMatch ← tryLock (.containsMsgRootChannel stage4.1)
  Prog.check .error (Option.getD rootsMatch false)
  let stage4Leaves ← orError (decodeLeaves stage4.2.leaves)
  let stage4DecodedProof ← orError (decodeProof stage4.2.proof)
  let optStage3 ← tryLock (.getMsgRootChannel stage4.1)
  let stage3Proof ← orError (Option.join optStage3)
  let optStage2 ← tryLock (.getParaHeader stage3Proof.root)
  let stage2Proof ← orError (Option.join optStage2)
  let beefyEntries ← tryLock (.beefyEntries stage2Proof.root)
  -- of several entries the last one is taken
  let stage1 ← orError (List.getLast? (Option.getD beefyEntries []))
  let stage1Leaves ← orError (decodeLeaves stage1.2.leaves)
  let stage1DecodedProof ← orError (decodeProof stage1.2.proof)
  return (stage4.1, ⟨(stage1DecodedProof, stage1Leaves), stage2Proof, stage3Proof, (stage4DecodedProof, stage4Leaves)⟩,
    stage1.1)

/-- The second part of `generate_xcmp_proof`: the root is removed, and then the proof is submitted. -/
def removeAndSubmit (stages : H256 × XcmpProof × H256) : Code Unit := do
  let removed ← tryLock (.removeMsgRoot stages.1)
  let _ ← orError (Option.join removed)
  let api ← request .runtimeApiAtLatest
  orError api
  let _beefyRoot ← request .getCurrentBeefyRoot
  submitXcmpProof stages.2.1 stages.2.2

def generateXcmpProof : Code Unit := do
  let stages ← lookUpStages
  removeAndSubmit stages

/-! ### The tasks together -/

inductive TaskId where
  | relay
  | para
  | generator
  deriving DecidableEq

/-- The maps, and the best block of the relay node, which moves in any way. -/
structure Shared where
  maps : Maps
  relayBest : H256

def handle (s : Shared) : (q : Query) → Answer q → Option Shared
  | .request _, _ => some s
  | .tryLock _, none => some s
  | .tryLock x, some r => if r = x.read s.maps then some { s with maps := x.write s.maps } else none

def machine (env : Externals) : Machine TaskId Shared Block H256 Answer Failure where
  body
    | .relay, b => collectRelayData env b
    | .para, b => collectParaData b
    | .generator, _ => generateXcmpProof
  handle := handle
  world s best := { s with relayBest := best }
  survives i := i = .generator

/-- The only task that makes an access. -/
def Access.task : Access → TaskId
  | insertLeaf .. | insertParaHeader .. => .relay
  | insertMsgRoot .. | insertChannelRootProof .. | insertMsgRootChannel .. | containsMsgRoot _ => .para
  | containsMsgRootChannel _ | firstMsgRoot | getMsgRootChannel _ | getParaHeader _ | beefyEntries _
  | removeMsgRoot _ => .generator

/-- The questions of a task. -/
def AskedBy (i : TaskId) : Query → Prop
  | .request (.signAndSubmit ..) => i = .generator
  | .request _ => True
  | .tryLock x => x.task = i

/-- What has to be shown of a submission: its request is asked for, and the two that may follow are harmless. -/
theorem wp_submitXcmpProof {Φ : (q : Query) → Answer q → Prop} {Ψ : Hist Answer → Query → Prop} {h : Hist Answer}
    {p : XcmpProof} {root : H256} (hsubmit : Ψ h (.request (.signAndSubmit p root)))
    (hwait : ∀ h, Ψ h (.request .waitForInBlock) ∧ Ψ h (.request .waitForSuccess)) :
    Prog.wp Φ Ψ h (submitXcmpProof p root) fun _ _ => True := by
  simp only [submitXcmpProof, request, orError, Prog.wp_bind, Prog.wp_query, Prog.onOk_ok, Prog.wp_ofOption,
    Prog.onOk_error, implies_true, and_true]
  refine ⟨hsubmit, fun _ _ _ _ => ⟨(hwait _).1, fun txInBlock _ => ?_⟩⟩
  split
  · exact ⟨(hwait _).2, fun _ _ => trivial⟩
  · trivial

theorem body_askedBy (env : Externals) (i : TaskId) (b : Block) :
    Prog.wp (fun _ _ => True) (fun _ => AskedBy i) [] ((machine env).body i b) fun _ _ => True := by
  cases i with
  | relay =>
    simp only [machine, collectRelayData, request, tryLock, orError, first, generateMmrProof, Prog.wp_bind,
      Prog.wp_query, Prog.wp_pure, Prog.onOk_ok, Prog.wp_ofOption, Prog.wp_check, Prog.onOk_error, AskedBy, Access.task,
      implies_true, and_self]
  | para =>
    simp only [machine, collectParaData, request, tryLock, orError, generateMmrProof, generateMmrRoot, Prog.wp_bind,
      Prog.wp_query, Prog.onOk_ok, Prog.wp_ofOption, Prog.onOk_error, AskedBy, Access.task, implies_true, and_true,
      true_and, forall_const]
    intros
    split
    · exact ⟨rfl, fun _ _ => trivial⟩
    · trivial
  | generator =>
    simp only [machine, generateXcmpProof, lookUpStages, removeAndSubmit, request, tryLock, orError, Prog.wp_bind,
      Prog.wp_query, Prog.wp_pure, Prog.onOk_ok, Prog.wp_ofOption, Prog.wp_check, Prog.onOk_error, AskedBy, Access.task,
      implies_true, and_true, true_and, forall_const]
    intros
    exact wp_submitXcmpProof rfl fun _ => ⟨trivial, trivial⟩

theorem wp_askedBy_and (env : Externals) {i : TaskId} {b : Block} {Φ : (q : Query) → Answer q → Prop}
    {Ψ : Hist Answer → Query → Prop} {post : Hist Answer → Except Failure Unit → Prop}
    (h : Prog.wp Φ Ψ [] ((machine env).body i b) post) :
    Prog.wp Φ (fun h q => AskedBy i q ∧ Ψ h q) [] ((machine env).body i b) post := by
  have hasked : Prog.wp Φ (fun _ => AskedBy i) [] ((machine env).body i b) fun _ _ => True :=
    Prog.wp_mono_asked (fun _ _ _ => trivial) (fun _ _ hq => hq) (body_askedBy env i b)
  exact Prog.wp_mono (fun _ _ hpost => hpost.2) (Prog.wp_and hasked h)

/-- What is shown of the body of one task, put beside the questions of all tasks. -/
theorem body_askedBy_and (env : Externals) {j : TaskId} {b : Block} {Ψ : Hist Answer → Query → Prop}
    {post : Hist Answer → Except Failure Unit → Prop}
    (hj : Prog.wp (fun _ _ => True) Ψ [] ((machine env).body j b) post) (i : TaskId) :
    Prog.wp (fun _ _ => True) (fun h q => AskedBy i q ∧ (i = j → Ψ h q)) [] ((machine env).body i b)
      fun h r => i = j → post h r := by
  by_cases hij : i = j
  · subst hij
    refine Prog.wp_mono (fun _ _ hpost _ => hpost) (Prog.wp_mono_asked (fun _ _ h => h) ?_ (wp_askedBy_and env hj))
    intro _ _ hq
    exact ⟨hq.1, fun _ => hq.2⟩
  · refine Prog.wp_mono (fun _ _ _ hi => absurd hi hij) (Prog.wp_mono_asked (fun _ _ h => h) ?_ (body_askedBy env i b))
    intro _ _ hq
    exact ⟨hq, fun hi => absurd hi hij⟩

/-- What the shared state does with a question. -/
inductive Handled (s : Shared) : (q : Query) → Answer q → Shared → Prop
  | request (r : Request) (a : Option r.Result) : Handled s (.request r) a s
  | busy (x : Access) : Handled s (.tryLock x) none s
  | locked (x : Access) : Handled s (.tryLock x) (some (x.read s.maps)) { s with maps := x.write s.maps }

theorem handled_of_handle {s s' : Shared} {q : Query} {a : Answer q} (h : handle s q a = some s') :
    Handled s q a s' := by
  cases q with
  | request r =>
    cases h
    exact .request r a
  | tryLock x =>
    cases a with
    | none =>
      cases h
      exact .busy x
    | some r =>
      simp only [handle] at h
      split at h
      · rename_i hr
        cases h
        subst hr
        exact .locked x
      · cases h

/-- The answers of the nodes, for each best block of the relay node. -/
abbrev Nodes := H256 → (r : Request) → Option r.Result

/-- All locks are free, and the nodes answer as given. -/
def freeReply (nodes : Nodes) (s : Shared) : (q : Query) → Answer q × Shared
  | .request r => (nodes s.relayBest r, s)
  | .tryLock x => (some (x.read s.maps), { s with maps := x.write s.maps })

theorem handle_freeReply (nodes : Nodes) (s : Shared) (q : Query) :
    handle s q (freeReply nodes s q).1 = some (freeReply nodes s q).2 := by
  cases q with
  | request r => rfl
  | tryLock x => simp [handle, freeReply]

/-- What holds of all entries of a map and of a new entry holds of all entries after the insertion. -/
theorem forall_getElem?_insert {κ β : Type} {cmp : κ → κ → Ordering} [Std.TransCmp cmp] [Std.LawfulEqCmp cmp]
    {m : Std.TreeMap κ β cmp} {P : κ → β → Prop} (h : ∀ k v, m[k]? = some v → P k v) {k : κ} {v : β} (hkv : P k v)
    (k' : κ) (v' : β) (h' : (m.insert k v)[k']? = some v') : P k' v' := by
  rw [Std.TreeMap.getElem?_insert] at h'
  split at h'
  · rename_i heq
    obtain rfl := Std.LawfulEqCmp.eq_of_compare heq
    cases h'
    exact hkv
  · exact h k' v' h'

abbrev State := Machine.State TaskId Shared Block Answer Failure

abbrev Event := Machine.Event TaskId Block H256 Answer

/-- The relayer at its start, with the relay node at some block. -/
def boot (best : H256) : State := Machine.State.init ⟨.empty, best⟩

/-- The proof that the generator is about to submit, and the root it is for. -/
def submitting (s : State) : Option (XcmpProof × H256) :=
  match s.tasks .generator with
  | .running _ _ (.ask (.request (.signAndSubmit p root)) _) => some (p, root)
  | _ => none

/-- With free locks a body alone is a run, if the answers of the nodes meet the condition. -/
theorem reaches_launch_free {env : Externals} {C : State → Event → Prop} {s : State} (stop : Query → Bool)
    (nodes : Nodes) {i : TaskId} (b : Block) (hi : s.tasks i = .idle) (hstart : C s (.start i b))
    (hanswer : ∀ s q, C s (.answer i q (freeReply nodes s.shared q).1)) :
    Reaches (machine env).step C s ((machine env).launch stop (freeReply nodes) s i b) :=
  Machine.reaches_launch (J := fun _ => True) (fun s q _ => ⟨handle_freeReply nodes s q, trivial⟩)
    (fun s _ q _ _ _ => hanswer s q) trivial hi hstart

theorem reaches_perform_free {env : Externals} {C : State → Event → Prop} {s : State} (nodes : Nodes) {i : TaskId}
    (b : Block) (hi : s.tasks i = .idle) (hstart : C s (.start i b))
    (hanswer : ∀ s q, C s (.answer i q (freeReply nodes s.shared q).1)) (hfinish : ∀ s, C s (.finish i)) :
    Reaches (machine env).step C s ((machine env).perform (freeReply nodes) s i b) :=
  Machine.reaches_perform (J := fun _ => True) (fun s q _ => ⟨handle_freeReply nodes s q, trivial⟩)
    (fun s _ q _ _ _ => hanswer s q) trivial hi hstart hfinish

theorem reachable_launch {env : Externals} {s : State} (stop : Query → Bool) (nodes : Nodes) {i : TaskId} (b : Block)
    (hi : s.tasks i = .idle) :
    Reachable (machine env).step s ((machine env).launch stop (freeReply nodes) s i b) :=
  reaches_launch_free stop nodes b hi trivial fun _ _ => trivial

theorem reachable_perform {env : Externals} {s : State} (nodes : Nodes) {i : TaskId} (b : Block)
    (hi : s.tasks i = .idle) : Reachable (machine env).step s ((machine env).perform (freeReply nodes) s i b) :=
  reaches_perform_free nodes b hi trivial (fun _ _ => trivial) fun _ => trivial

theorem submitting_eq_some {s : State} {p : XcmpProof} {root : H256} (h : submitting s = some (p, root)) :
    ∃ b hist k, s.tasks .generator = .running b hist (.ask (.request (.signAndSubmit p root)) k) := by
  unfold submitting at h
  split at h
  · rename_i b hist p' root' k ht
    cases h
    exact ⟨b, hist, k, ht⟩
  · cases h

end XcmpPrototype.Relayer
