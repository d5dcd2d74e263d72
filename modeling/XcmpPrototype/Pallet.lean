import XcmpPrototype.Primitives

/-!
# The message stuffer pallet

The pallet of one channel: it remembers the BEEFY roots that the relay chain hands to each block, and checks proofs of
messages against them.  `submitXcmpProof` unravels a proof in four stages, from a BEEFY root to a parachain head, to the
root over that parachain's channels, to the root of one channel, to message leaves.  `submitXcmpProof_eq_ok` says
exactly what has been checked when a proof is accepted.

Code that the pallet calls and that lives elsewhere is a parameter, `Externals`.
-/

open Scale

namespace XcmpPrototype

/-- The functions of other crates that the pallet calls. -/
structure Externals where
  /-- `pallet_mmr::verify_leaves_proof` on leaves hashed as they are; `true` stands for `Ok`. -/
  verifyLeavesProof : H256 → List EncodableOpaqueLeaf → MmrProof → Bool
  /-- `binary_merkle_tree::verify_proof` on the content of a leaf. -/
  verifyProof : H256 → List H256 → UInt32 → UInt32 → Bytes → Bool
  /-- `xcmr_digest::extract_xcmp_channel_merkle_root`. -/
  extractXcmpChannelMerkleRoot : Digest → Option H256

/-- The constants of an instance.  The bound is only part of the type of the list of roots. -/
structure Config where
  paraIdentifier : ParaId
  leafVersion : UInt8
  maxBeefyRootsKept : UInt32

inductive Event where
  | xcmpMessageSent (msgHash : H256) (blockNum : UInt32)
  | xcmpMessagesAccepted (mmrChannelRoot : H256) (channelId : UInt64)
  deriving DecidableEq

structure Storage where
  xcmpChannelRoots : Std.TreeMap UInt64 H256
  seenBeefyRoots : Std.TreeMap H256 UInt32
  seenBeefyRootsOrder : List H256
  events : List Event

def Storage.genesis : Storage := ⟨∅, ∅, [], []⟩

inductive Error where
  | xcmpProofNotValid
  | xcmpProofAccepted
  | xcmpProofLeavesNotValid
  | xcmpNoChannelRootForChannelId
  | xcmpBeefyRootTargetedNeverSeen
  | xcmpStage1LeavesTooLarge
  | xcmpStage1ProofDoesntVerify
  | xcmpStage2RootDoesntMatch
  | xcmpStage2LeafDoesntDecode
  | xcmpStage2ProofDoesntVerify
  | xcmpStage3HeaderDoesntDecode
  | xcmpStage3CannotBeExtracted
  | xcmpStage3RootDoesntMatch
  | xcmpStage3ProofDoesntVerify
  | xcmpStage4ProofDoesntVerify
  deriving DecidableEq

/-- How a call ends without success.  A panic is an index out of bounds or an `unwrap` of a failed conversion. -/
inductive Failure where
  | badOrigin
  | error (e : Error)
  | panic
  deriving DecidableEq

inductive Origin where
  | root
  | signed (who : Bytes)
  | none
  deriving DecidableEq

/-! ### Ways to leave a call -/

def ensureSigned : Origin → Except Failure Unit
  | .signed _ => .ok ()
  | _ => .error .badOrigin

def ensure (c : Bool) (e : Error) : Except Failure Unit := if c then .ok () else .error (.error e)

def okOr {α : Type} (o : Option α) (e : Error) : Except Failure α :=
  match o with
  | some a => .ok a
  | none => .error (.error e)

/-- Indexing at `0`. -/
def first {α : Type} : List α → Except Failure α
  | a :: _ => .ok a
  | [] => .error .panic

/-- `try_into().unwrap()` from 64 to 32 bits. -/
def tryInto (x : UInt64) : Except Failure UInt32 := if x.toNat < 2 ^ 32 then .ok x.toUInt32 else .error .panic

section Exits

variable {α β : Type} {f : α → Except Failure β} {b : β} {e : Failure}

theorem bind_eq_ok {x : Except Failure α} : (x >>= f) = .ok b ↔ ∃ a, x = .ok a ∧ f a = .ok b := by
  cases x with
  | error e => simp [bind, Except.bind]
  | ok a => simp [bind, Except.bind]

theorem bind_eq_error {x : Except Failure α} :
    (x >>= f) = .error e ↔ x = .error e ∨ ∃ a, x = .ok a ∧ f a = .error e := by
  cases x with
  | error e => simp [bind, Except.bind]
  | ok a => simp [bind, Except.bind]

@[simp] theorem ensureSigned_eq_ok {o : Origin} {u : Unit} : ensureSigned o = .ok u ↔ ∃ who, o = .signed who := by
  cases o <;> simp [ensureSigned]

@[simp] theorem ensureSigned_eq_error {o : Origin} :
    ensureSigned o = .error e ↔ (∀ who, o ≠ .signed who) ∧ e = .badOrigin := by
  cases o <;> simp [ensureSigned, eq_comm]

@[simp] theorem ensure_eq_ok {c : Bool} {k : Error} {u : Unit} : ensure c k = .ok u ↔ c = true := by
  cases c <;> simp [ensure]

@[simp] theorem ensure_eq_error {c : Bool} {k : Error} : ensure c k = .error e ↔ c = false ∧ e = .error k := by
  cases c <;> simp [ensure, eq_comm]

@[simp] theorem okOr_eq_ok {o : Option α} {k : Error} {a : α} : okOr o k = .ok a ↔ o = some a := by
  cases o <;> simp [okOr]

@[simp] theorem okOr_eq_error {o : Option α} {k : Error} : okOr o k = .error e ↔ o = none ∧ e = .error k := by
  cases o <;> simp [okOr, eq_comm]

@[simp] theorem first_eq_ok {l : List α} {a : α} : first l = .ok a ↔ ∃ t, l = a :: t := by
  cases l <;> simp [first, eq_comm]

@[simp] theorem first_eq_error {l : List α} : first l = .error e ↔ l = [] ∧ e = .panic := by
  cases l <;> simp [first, eq_comm]

@[simp] theorem tryInto_eq_ok {x : UInt64} {y : UInt32} : tryInto x = .ok y ↔ x.toNat < 2 ^ 32 ∧ x.toUInt32 = y := by
  unfold tryInto
  split <;> simp_all

@[simp] theorem tryInto_eq_error {x : UInt64} : tryInto x = .error e ↔ 2 ^ 32 ≤ x.toNat ∧ e = .panic := by
  unfold tryInto
  split
  · simp; omega
  · simp only [Except.error.injEq, eq_comm]
    constructor
    · intro h; exact ⟨by omega, h⟩
    · intro h; exact h.2

end Exits

/-! ### Hooks and calls -/

/-- `on_initialize` with the answer of `BeefyRootProvider::get_root`. -/
def onInitialize (s : Storage) (n : UInt32) (getRoot : Option H256) : Storage :=
  let beefyRoot := getRoot.getD H256.zero
  { s with
    seenBeefyRoots := s.seenBeefyRoots.insert beefyRoot n
    seenBeefyRootsOrder := s.seenBeefyRootsOrder ++ [beefyRoot] }

def submitTestProof (env : Externals) (s : Storage) (origin : Origin) (mmrProof : MmrProof)
    (leaves : List EncodableOpaqueLeaf) (channelId : UInt64) : Except Failure Storage := do
  ensureSigned origin
  let root ← okOr (s.xcmpChannelRoots[channelId]?) .xcmpNoChannelRootForChannelId
  ensure (env.verifyLeavesProof root leaves mmrProof) .xcmpProofNotValid
  return { s with events := s.events ++ [.xcmpMessagesAccepted root channelId] }

def updateRoot (s : Storage) (origin : Origin) (root : H256) (channelId : UInt64) : Except Failure Storage := do
  ensureSigned origin
  return { s with xcmpChannelRoots := s.xcmpChannelRoots.insert channelId root }

/-- The channel root in the digest of the header that a head decodes to. -/
def extractXcmpChannelRoot (env : Externals) (leaf : ParaLeaf) : Except Failure H256 := do
  let header ← okOr (Header.codec.decode leaf.headData.1) .xcmpStage3HeaderDoesntDecode
  okOr (env.extractXcmpChannelMerkleRoot header.1.digest) .xcmpStage3CannotBeExtracted

/-- The call that checks a proof in four stages.  It changes no storage. -/
def submitXcmpProof (env : Externals) (s : Storage) (origin : Origin) (xcmpProof : XcmpProof)
    (beefyRootTargeted : H256) : Except Failure Unit := do
  ensureSigned origin
  ensure (s.seenBeefyRoots.contains beefyRootTargeted) .xcmpBeefyRootTargetedNeverSeen
  -- stage 1: a leaf of the BEEFY mountain range
  let stage1Leaves := xcmpProof.stage1.2
  ensure (env.verifyLeavesProof beefyRootTargeted stage1Leaves xcmpProof.stage1.1) .xcmpStage1ProofDoesntVerify
  ensure (¬ stage1Leaves.length > 1) .xcmpStage1LeavesTooLarge
  let stage1Leaf ← first stage1Leaves
  let stage2Leaf ← okOr (BeefyMmrLeaf.codec.decode stage1Leaf) .xcmpStage2LeafDoesntDecode
  -- stage 2: a parachain head below that leaf
  ensure (stage2Leaf.1.leafExtra = xcmpProof.stage2.root) .xcmpStage2RootDoesntMatch
  let numLeaves ← tryInto xcmpProof.stage2.numLeaves
  let leafIndex ← tryInto xcmpProof.stage2.leafIndex
  ensure (env.verifyProof xcmpProof.stage2.root xcmpProof.stage2.proof numLeaves leafIndex
    (ParaLeaf.codec.encode xcmpProof.stage2.leaf)) .xcmpStage2ProofDoesntVerify
  -- stage 3: a channel root below that head
  let stage3Root ← extractXcmpChannelRoot env xcmpProof.stage2.leaf
  ensure (stage3Root = xcmpProof.stage3.root) .xcmpStage3RootDoesntMatch
  let numLeaves ← tryInto xcmpProof.stage3.numLeaves
  let leafIndex ← tryInto xcmpProof.stage3.leafIndex
  ensure (env.verifyProof xcmpProof.stage3.root xcmpProof.stage3.proof numLeaves leafIndex xcmpProof.stage3.leaf.bytes)
    .xcmpStage3ProofDoesntVerify
  -- stage 4: message leaves of that channel
  ensure (env.verifyLeavesProof xcmpProof.stage3.leaf xcmpProof.stage4.2 xcmpProof.stage4.1)
    .xcmpStage4ProofDoesntVerify

/-- What is known of an accepted proof. -/
structure Accepted (env : Externals) (s : Storage) (origin : Origin) (p : XcmpProof) (beefyRootTargeted : H256)
    (blob : EncodableOpaqueLeaf) (leaf : BeefyMmrLeaf) (rest : Bytes) : Prop where
  signed : ∃ who, origin = .signed who
  seen : s.seenBeefyRoots.contains beefyRootTargeted = true
  stage1 : env.verifyLeavesProof beefyRootTargeted [blob] p.stage1.1 = true
  leaves : p.stage1.2 = [blob]
  decodes : BeefyMmrLeaf.codec.decode blob = some (leaf, rest)
  leafExtra : leaf.leafExtra = p.stage2.root
  count2 : p.stage2.numLeaves.toNat < 2 ^ 32
  index2 : p.stage2.leafIndex.toNat < 2 ^ 32
  stage2 : env.verifyProof p.stage2.root p.stage2.proof p.stage2.numLeaves.toUInt32 p.stage2.leafIndex.toUInt32
    (ParaLeaf.codec.encode p.stage2.leaf) = true
  extracted : extractXcmpChannelRoot env p.stage2.leaf = .ok p.stage3.root
  count3 : p.stage3.numLeaves.toNat < 2 ^ 32
  index3 : p.stage3.leafIndex.toNat < 2 ^ 32
  stage3 : env.verifyProof p.stage3.root p.stage3.proof p.stage3.numLeaves.toUInt32 p.stage3.leafIndex.toUInt32
    p.stage3.leaf.bytes = true
  stage4 : env.verifyLeavesProof p.stage3.leaf p.stage4.2 p.stage4.1 = true

/-- A proof is accepted exactly when it has one stage-1 leaf and passes every check. -/
theorem submitXcmpProof_eq_ok {env : Externals} {s : Storage} {origin : Origin} {p : XcmpProof}
    {beefyRootTargeted : H256} :
    submitXcmpProof env s origin p beefyRootTargeted = .ok () ↔
      ∃ blob leaf rest, Accepted env s origin p beefyRootTargeted blob leaf rest := by
  constructor
  · intro h
    simp only [submitXcmpProof, bind_eq_ok, ensureSigned_eq_ok, ensure_eq_ok, first_eq_ok, okOr_eq_ok, tryInto_eq_ok,
      decide_eq_true_eq] at h
    obtain ⟨_, hs, _, hseen, _, h1, _, hlen, blob, ⟨t, ht⟩, ⟨leaf, rest⟩, hd, _, he, _, ⟨hn2, rfl⟩, _, ⟨hi2, rfl⟩, _,
      h2, r, hr, _, rfl, _, ⟨hn3, rfl⟩, _, ⟨hi3, rfl⟩, _, h3, h4⟩ := h
    have ht' : t = [] := by
      rw [ht, List.length_cons] at hlen
      exact List.eq_nil_of_length_eq_zero (by omega)
    subst ht'
    rw [ht] at h1
    exact ⟨blob, leaf, rest, hs, hseen, h1, ht, hd, he, hn2, hi2, h2, hr, hn3, hi3, h3, h4⟩
  · rintro ⟨blob, leaf, rest, h⟩
    simp only [submitXcmpProof, bind_eq_ok, ensureSigned_eq_ok, ensure_eq_ok, first_eq_ok, okOr_eq_ok, tryInto_eq_ok,
      decide_eq_true_eq]
    refine ⟨(), h.signed, (), h.seen, (), ?_, (), ?_, blob, ⟨[], h.leaves⟩, (leaf, rest), h.decodes, (), h.leafExtra, _,
      ⟨h.count2, rfl⟩, _, ⟨h.index2, rfl⟩, (), h.stage2, _, h.extracted, (), rfl, _, ⟨h.count3, rfl⟩, _,
      ⟨h.index3, rfl⟩, (), h.stage3, h.stage4⟩
    · rw [h.leaves]; exact h.stage1
    · rw [h.leaves]; simp

theorem extractXcmpChannelRoot_eq_ok {env : Externals} {leaf : ParaLeaf} {r : H256} :
    extractXcmpChannelRoot env leaf = .ok r ↔
      ∃ header rest, Header.codec.decode leaf.headData.1 = some (header, rest) ∧
        env.extractXcmpChannelMerkleRoot header.digest = some r := by
  simp only [extractXcmpChannelRoot, bind_eq_ok, okOr_eq_ok, Prod.exists]

/-- The result of `submitXcmpProof` depends on the storage only through the presence of the targeted root. -/
theorem submitXcmpProof_congr (env : Externals) {s s' : Storage} (origin : Origin) (p : XcmpProof)
    {beefyRootTargeted : H256}
    (h : s.seenBeefyRoots.contains beefyRootTargeted = s'.seenBeefyRoots.contains beefyRootTargeted) :
    submitXcmpProof env s origin p beefyRootTargeted = submitXcmpProof env s' origin p beefyRootTargeted := by
  simp only [submitXcmpProof, h]

/-! ### Dispatch -/

inductive Call where
  | submitTestProof (mmrProof : MmrProof) (leaves : List EncodableOpaqueLeaf) (channelId : UInt64)
  | updateRoot (root : H256) (channelId : UInt64)
  | submitXcmpProof (xcmpProof : XcmpProof) (beefyRootTargeted : H256)

/-- A call on the storage of an instance; a failing call leaves the storage as it was. -/
def dispatch (env : Externals) (s : Storage) (origin : Origin) : Call → Storage × Except Failure Unit
  | .submitTestProof mmrProof leaves channelId =>
    match submitTestProof env s origin mmrProof leaves channelId with
    | .ok s' => (s', .ok ())
    | .error e => (s, .error e)
  | .updateRoot root channelId =>
    match updateRoot s origin root channelId with
    | .ok s' => (s', .ok ())
    | .error e => (s, .error e)
  | .submitXcmpProof xcmpProof beefyRootTargeted => (s, submitXcmpProof env s origin xcmpProof beefyRootTargeted)

/-- No call touches the roots that were seen. -/
theorem dispatch_seenBeefyRoots (env : Externals) (s : Storage) (origin : Origin) (call : Call) :
    (dispatch env s origin call).1.seenBeefyRoots = s.seenBeefyRoots ∧
      (dispatch env s origin call).1.seenBeefyRootsOrder = s.seenBeefyRootsOrder := by
  cases call with
  | submitTestProof mmrProof leaves channelId =>
    simp only [dispatch]
    split
    · rename_i s' h
      simp only [submitTestProof, bind_eq_ok, pure, Except.pure, Except.ok.injEq] at h
      obtain ⟨_, -, _, -, _, -, rfl⟩ := h
      exact ⟨rfl, rfl⟩
    · exact ⟨rfl, rfl⟩
  | updateRoot root channelId =>
    simp only [dispatch]
    split
    · rename_i s' h
      simp only [updateRoot, bind_eq_ok, pure, Except.pure, Except.ok.injEq] at h
      obtain ⟨_, -, rfl⟩ := h
      exact ⟨rfl, rfl⟩
    · exact ⟨rfl, rfl⟩
  | submitXcmpProof xcmpProof beefyRootTargeted => exact ⟨rfl, rfl⟩

/-- `leaf_data`: the leaf of a block carries the messages of the instance's recipient.  `hashOf` is the hash of the
block execution, used for the event only. -/
def leafData (cfg : Config) (hashOf : Bytes → H256) (s : Storage) (parentNumberAndHash : UInt32 × H256)
    (getXcmpMessages : H256 → ParaId → Vec UInt8) : Storage × MmrLeaf :=
  let rawMessages := getXcmpMessages parentNumberAndHash.2 cfg.paraIdentifier
  ({ s with events := s.events ++
      [.xcmpMessageSent (hashOf (byteVec.encode rawMessages)) parentNumberAndHash.1] },
    ⟨rawMessages, cfg.leafVersion, parentNumberAndHash⟩)

end XcmpPrototype
