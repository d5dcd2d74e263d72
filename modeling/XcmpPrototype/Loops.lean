import XcmpPrototype.Delivery
import XcmpPrototype.Turns

/-!
# The loops of the relayer

The relayer spawns three tasks, each of them one loop over the best blocks of a node.  The two collectors do nothing but
their turns.  The loop of `get_proof_and_verify` does more: it holds a root and a proof of messages, announces the root
with `update_root` in every turn, tries to assemble and submit a proof, and once its root is found on chain it submits
the proof that it holds to the test call and fetches a new pair.

Every run of these loops is a run of the machine of single turns, but for the questions between the turns
(`loops_refine`), so what holds in all runs of the machine holds of the maps and the submissions of the loops.
-/

open Scale

namespace XcmpPrototype.Relayer

/-! ### Questions between the turns -/

/-- Requests of the loops, beside those that are also made inside a turn. -/
inductive LoopRequest where
  | node (r : Request)
  | subscribeBest
  | nextBlock
  | storageAtLatest
  | fetchChannelRoot (channelId : UInt64)
  | verifyProofStateless (root : H256) (proof : LeavesProof)
  | updateRoot (root : H256) (channelId : UInt64)
  | submitTestProof (proof : MmrProof) (leaves : List EncodableOpaqueLeaf) (channelId : UInt64)
  deriving DecidableEq

@[reducible] def LoopRequest.Result : LoopRequest → Type
  | node r => r.Result
  | nextBlock => Option Block
  | fetchChannelRoot _ => Option H256
  | verifyProofStateless .. => Option Bool
  | subscribeBest | storageAtLatest | updateRoot .. | submitTestProof .. => Unit

/-- A request has a result or fails; without a next block the subscription has ended. -/
@[reducible] def LoopAnswer (r : LoopRequest) : Type := Option r.Result

abbrev LoopCode := Prog (Prog.Around Answer LoopAnswer) Failure

namespace Loop

def request (r : LoopRequest) : LoopCode (Option r.Result) := Prog.query (Sum.inr r)

def orError {α : Type} (o : Option α) : LoopCode α := Prog.ofOption .error o

/-- `Err` is a value; a panic is not. -/
def attempt {α : Type} (p : LoopCode α) : LoopCode (Except Failure α) := Prog.attempt (fun e => e = .error) p

def generateMmrProof (blockNum : UInt64) (channelId : Option UInt64) (blockHash : Option H256) :
    LoopCode LeavesProof := do
  let optProof ← request (.node (.generateProof blockNum blockHash channelId))
  orError (Option.join optProof)

def generateMmrRoot (channelId : Option UInt64) (blockHash : Option H256) : LoopCode H256 := do
  let optRoot ← request (.node (.mmrRoot blockHash channelId))
  orError (Option.join optRoot)

/-- What follows `sign_and_submit`; failures are only logged. -/
def watch : LoopCode Unit := do
  let txInBlock ← request (.node .waitForInBlock)
  if Option.isSome txInBlock then
    let _ ← request (.node .waitForSuccess)
  else
    pure ()

def updateRoot (root : H256) : LoopCode Unit := do
  let txProgress ← request (.updateRoot root 0)
  orError txProgress
  watch

def submitProof (proof : LeavesProof) : LoopCode Unit := do
  let leaves ← orError (decodeLeaves proof.leaves)
  let decodedProof ← orError (decodeProof proof.proof)
  let txProgress ← request (.submitTestProof decodedProof leaves 0)
  orError txProgress
  watch

/-- The loop over the blocks of a subscription, for at most the given number of blocks. -/
def forEachBlock {α : Type} (body : α → Block → LoopCode α) : ℕ → α → LoopCode Unit
  | 0, _ => pure ()
  | n + 1, a => do
    let item ← request .nextBlock
    match item with
    | none => pure ()
    | some block =>
      let block ← orError block
      let a ← body a block
      forEachBlock body n a

/-- A task with a turn for each block. -/
def collect (body : Block → Code Unit) (n : ℕ) : LoopCode Unit := do
  let blocksSub ← request .subscribeBest
  orError blocksSub
  forEachBlock (fun _ block => Prog.turn (body block)) n ()

/-- The root and the proof that are held from one turn to the next. -/
structure Held where
  root : H256
  proof : LeavesProof

def fetchHeld : LoopCode Held := do
  let root ← generateMmrRoot (some receiverChannelId) none
  let proof ← generateMmrProof 1 (some receiverChannelId) none
  return ⟨root, proof⟩

/-- One turn of the loop of `get_proof_and_verify`. -/
def mainTurn (held : Held) (_block : Block) : LoopCode Held := do
  let storage ← request .storageAtLatest
  orError storage
  let fetched ← request (.fetchChannelRoot 0)
  let onchainRoot := (Option.join fetched).getD H256.zero
  let _ ← attempt (updateRoot held.root)
  let _ ← attempt (Prog.turn generateXcmpProof)
  if onchainRoot = held.root then
    let submitted ← attempt (submitProof held.proof)
    match submitted with
    | .ok _ => fetchHeld
    | .error _ => pure held
  else
    pure held

def getProofAndVerify (n : ℕ) : LoopCode Unit := do
  let held ← fetchHeld
  let verification ← request (.verifyProofStateless held.root held.proof)
  let _ ← orError (Option.join verification)
  let blocksSub ← request .subscribeBest
  orError blocksSub
  forEachBlock mainTurn n held

end Loop

/-- The three tasks, each for a number of blocks. -/
def loopOf (env : Externals) : TaskId → ℕ → LoopCode Unit
  | .relay, n => Loop.collect (collectRelayData env) n
  | .para, n => Loop.collect collectParaData n
  | .generator, n => Loop.getProofAndVerify n

def loops (env : Externals) : Machine TaskId Shared ℕ H256 (Prog.Around Answer LoopAnswer) Failure :=
  (machine env).around (loopOf env)

abbrev LoopState := Machine.State TaskId Shared ℕ (Prog.Around Answer LoopAnswer) Failure

abbrev LoopEvent := Machine.Event TaskId ℕ H256 (Prog.Around Answer LoopAnswer)

def loopBoot (best : H256) : LoopState := Machine.State.init ⟨.empty, best⟩

/-- The proof that the loop of `get_proof_and_verify` is about to submit, and the root it is for. -/
def loopSubmitting (s : LoopState) : Option (XcmpProof × H256) :=
  match s.tasks .generator with
  | .running _ _ (.ask (.inl (.request (.signAndSubmit p root))) _) => some (p, root)
  | _ => none

/-! ### Loops consist of turns -/

section Tracks

variable {body : Block → Code Unit} {survives : Bool}

private theorem tracks_request (r : LoopRequest) : Prog.Tracks body survives none (Loop.request r) := .query r

private theorem tracks_orError {α : Type} (o : Option α) : Prog.Tracks body survives none (Loop.orError o) :=
  .ofOption _ o

private theorem tracks_forEachBlock {α : Type} {f : α → Block → LoopCode α}
    (hf : ∀ a b, Prog.Tracks body survives none (f a b)) (n : ℕ) (a : α) :
    Prog.Tracks body survives none (Loop.forEachBlock f n a) := by
  induction n generalizing a with
  | zero => exact .ret ()
  | succ n ih =>
    refine (tracks_request _).bind fun item => ?_
    cases item with
    | none => exact .ret ()
    | some block => exact (tracks_orError block).bind fun b => (hf a b).bind fun a => ih a

private theorem tracks_collect (n : ℕ) : Prog.Tracks body survives none (Loop.collect body n) :=
  (tracks_request _).bind fun _ => (tracks_orError _).bind fun _ => tracks_forEachBlock (fun _ b => .turn b) n ()

private theorem tracks_watch : Prog.Tracks body survives none Loop.watch := by
  refine (tracks_request _).bind fun txInBlock => ?_
  split
  · exact (tracks_request _).bind fun _ => .ret ()
  · exact .ret ()

private theorem tracks_updateRoot (root : H256) : Prog.Tracks body survives none (Loop.updateRoot root) :=
  (tracks_request _).bind fun _ => (tracks_orError _).bind fun _ => tracks_watch

private theorem tracks_submitProof (proof : LeavesProof) : Prog.Tracks body survives none (Loop.submitProof proof) :=
  (tracks_orError _).bind fun _ => (tracks_orError _).bind fun _ => (tracks_request _).bind fun _ =>
    (tracks_orError _).bind fun _ => tracks_watch

private theorem tracks_fetchHeld : Prog.Tracks body survives none Loop.fetchHeld :=
  ((tracks_request _).bind fun _ => tracks_orError _).bind fun _ =>
    ((tracks_request _).bind fun _ => tracks_orError _).bind fun _ => .ret _

/-- The errors of a turn of the generator do not end the loop. -/
private theorem tracks_mainTurn (held : Loop.Held) (block : Block) :
    Prog.Tracks (fun _ : Block => generateXcmpProof) true none (Loop.mainTurn held block) := by
  refine (tracks_request _).bind fun _ => (tracks_orError _).bind fun _ => (tracks_request _).bind fun _ => ?_
  have hturn : Prog.Tracks (fun _ : Block => generateXcmpProof) true none
      (Prog.turn generateXcmpProof : LoopCode Unit) := .turn block
  refine ((tracks_updateRoot _).attempt _ rfl).bind fun _ => (hturn.attempt _ rfl).bind fun _ => ?_
  split
  · refine ((tracks_submitProof _).attempt _ rfl).bind fun submitted => ?_
    cases submitted with
    | ok u => exact tracks_fetchHeld
    | error e => exact .ret held
  · exact .ret held

private theorem tracks_getProofAndVerify (n : ℕ) :
    Prog.Tracks (fun _ : Block => generateXcmpProof) true none (Loop.getProofAndVerify n) :=
  tracks_fetchHeld.bind fun held => (tracks_request _).bind fun _ => (tracks_orError _).bind fun _ =>
    (tracks_request _).bind fun _ => (tracks_orError _).bind fun _ => tracks_forEachBlock tracks_mainTurn n held

end Tracks

theorem tracks_loopOf (env : Externals) (i : TaskId) (n : ℕ) :
    Prog.Tracks ((machine env).body i) ((machine env).survives i) none (loopOf env i n) := by
  cases i with
  | relay => exact tracks_collect n
  | para => exact tracks_collect n
  | generator => exact tracks_getProofAndVerify n

/-! ### The machine of single turns -/

/-- A matching state that has caught up with the task that submits. -/
theorem exists_submitting {C : State → Event → Prop} (hstart : ∀ t i b, C t (.start i b))
    (hfinish : ∀ t i, C t (.finish i)) {env : Externals} {best : H256} {s : LoopState}
    (h : Reaches (loops env).step (Machine.Lifts (machine env) C) (loopBoot best) s) :
    ∃ t : State, Reaches (machine env).step C (boot best) t ∧ Machine.Sim (machine env) s t ∧
      ∀ p root, loopSubmitting s = some (p, root) → submitting t = some (p, root) := by
  obtain ⟨t, hreach, hsim⟩ := Machine.simulates hstart hfinish (tracks_loopOf env) _ h
  cases hi : s.tasks .generator with
  | running n hist q =>
    obtain ⟨t', hreach', hsim', hready⟩ := hsim.exists_ready hstart hfinish hi
    refine ⟨t', hreach.trans hreach', hsim', fun p root hp => ?_⟩
    unfold loopSubmitting at hp
    split at hp
    · rename_i hi'
      cases hp
      rw [hi] at hi'
      cases hi'
      obtain ⟨b, h, k, ht, -⟩ := hready
      simp only [submitting, ht]
    · cases hp
  | idle =>
    refine ⟨t, hreach, hsim, fun p root hp => ?_⟩
    simp only [loopSubmitting, hi, reduceCtorEq] at hp
  | stopped =>
    refine ⟨t, hreach, hsim, fun p root hp => ?_⟩
    simp only [loopSubmitting, hi, reduceCtorEq] at hp

/-- Every state that the loops reach is matched by a state that the machine of single turns reaches: the maps are the
same, each task has asked the same questions inside its turns with the same answers, and the proof that is about to be
submitted is the same. -/
theorem loops_refine (env : Externals) (best : H256) (s : LoopState)
    (h : Reachable (loops env).step (loopBoot best) s) :
    ∃ t : State, Reachable (machine env).step (boot best) t ∧ t.shared = s.shared ∧
      (∀ i, (s.record i).filterMap Machine.insideBody = t.record i) ∧
      ∀ p root, loopSubmitting s = some (p, root) → submitting t = some (p, root) := by
  have hlifts : Reaches (loops env).step (Machine.Lifts (machine env) fun _ _ => True) (loopBoot best) s := by
    refine h.mono fun s e _ => ?_
    unfold Machine.Lifts
    split
    · exact fun _ _ => trivial
    · exact fun _ _ => trivial
    · trivial
  obtain ⟨t, hreach, hsim, hsubmit⟩ := exists_submitting (fun _ _ _ => trivial) (fun _ _ => trivial) hlifts
  exact ⟨t, hreach, hsim.shared, hsim.record, hsubmit⟩

/-! ### A turn of each loop -/

/-- The nodes answer as given, locks are free, and `block` is the next block.  The channel root on chain is the one of
the test call `root`. -/
def loopReply (nodes : Nodes) (block : Block) (root : H256) (s : Shared) :
    (q : Query ⊕ LoopRequest) → Prog.Around Answer LoopAnswer q × Shared
  | .inl q => freeReply nodes s q
  | .inr (.node r) => (nodes s.relayBest r, s)
  | .inr .nextBlock => (some (some block), s)
  | .inr (.fetchChannelRoot _) => (some (some root), s)
  | .inr (.verifyProofStateless ..) => (some (some true), s)
  | .inr .subscribeBest | .inr .storageAtLatest | .inr (.updateRoot ..) | .inr (.submitTestProof ..) => (some (), s)

private theorem handle_loopReply (env : Externals) (nodes : Nodes) (block : Block) (root : H256) (s : Shared)
    (q : Query ⊕ LoopRequest) :
    (loops env).handle s q (loopReply nodes block root s q).1 = some (loopReply nodes block root s q).2 := by
  cases q with
  | inl q => exact handle_freeReply nodes s q
  | inr r => cases r <;> rfl

section Runs

variable {env : Externals} {C : LoopState → LoopEvent → Prop} {s : LoopState} {nodes : Nodes} {block : Block}
  {root : H256} {i : TaskId} {n : ℕ}

theorem reaches_loopLaunch (stop : Query ⊕ LoopRequest → Bool) (hi : s.tasks i = .idle) (hstart : C s (.start i n))
    (hanswer : ∀ s q, C s (.answer i q (loopReply nodes block root s.shared q).1)) :
    Reaches (loops env).step C s ((loops env).launch stop (loopReply nodes block root) s i n) :=
  Machine.reaches_launch (J := fun _ => True) (fun s q _ => ⟨handle_loopReply env nodes block root s q, trivial⟩)
    (fun s _ q _ _ _ => hanswer s q) trivial hi hstart

theorem reaches_loopPerform (hi : s.tasks i = .idle) (hstart : C s (.start i n))
    (hanswer : ∀ s q, C s (.answer i q (loopReply nodes block root s.shared q).1)) (hfinish : ∀ s, C s (.finish i)) :
    Reaches (loops env).step C s ((loops env).perform (loopReply nodes block root) s i n) :=
  Machine.reaches_perform (J := fun _ => True) (fun s q _ => ⟨handle_loopReply env nodes block root s q, trivial⟩)
    (fun s _ q _ _ _ => hanswer s q) trivial hi hstart hfinish

end Runs

/-- Each collector has gone through one turn of its loop, with the answers of a relay node and of a parachain node. -/
def loopCollected (relay para : Nodes) (relayBlock paraBlock : Block) : LoopState :=
  (loops (.documented xcmrRoot)).perform (loopReply para paraBlock H256.zero)
    ((loops (.documented xcmrRoot)).perform (loopReply relay relayBlock H256.zero) (loopBoot H256.zero) .relay 1)
    .para 1

/-- The loop of `get_proof_and_verify` has assembled a proof in its first turn. -/
def loopAssembled (relay para : Nodes) (relayBlock paraBlock : Block) : LoopState :=
  (loops (.documented xcmrRoot)).launch
    (fun
      | .inl q => isSubmission q
      | .inr _ => false)
    (loopReply para paraBlock H256.zero) (loopCollected relay para relayBlock paraBlock) .generator 1

section Runs

variable {C : LoopState → LoopEvent → Prop} {relay para : Nodes} {relayBlock paraBlock : Block}

theorem loopCollected_generator : (loopCollected relay para relayBlock paraBlock).tasks .generator = .idle := by
  rw [loopCollected, Machine.perform_tasks_of_ne (by decide), Machine.perform_tasks_of_ne (by decide)]
  rfl

variable (hstart : ∀ s i n, C s (.start i n))
  (hrelay : ∀ s q, C s (.answer .relay q (loopReply relay relayBlock H256.zero s.shared q).1))
  (hpara : ∀ s q, C s (.answer .para q (loopReply para paraBlock H256.zero s.shared q).1))
  (hfinish : ∀ s i, C s (.finish i))

include hstart hrelay hpara hfinish

theorem reaches_loopCollected :
    Reaches (loops (.documented xcmrRoot)).step C (loopBoot H256.zero)
      (loopCollected relay para relayBlock paraBlock) :=
  (reaches_loopPerform rfl (hstart _ _ _) hrelay fun s => hfinish s _).trans
    (reaches_loopPerform (Machine.perform_tasks_of_ne (by decide)) (hstart _ _ _) hpara fun s => hfinish s _)

theorem reaches_loopAssembled (hgenerator : ∀ s q a, C s (.answer .generator q a)) :
    Reaches (loops (.documented xcmrRoot)).step C (loopBoot H256.zero)
      (loopAssembled relay para relayBlock paraBlock) :=
  (reaches_loopCollected hstart hrelay hpara hfinish).trans
    (reaches_loopLaunch _ loopCollected_generator (hstart _ _ _) fun s q => hgenerator s q _)

end Runs

theorem loops_refine_assembled :
    (loopSubmitting (loopAssembled relayNode deliveringNode relayBlock paraBlock)).isSome = true ∧
      ∃ t : State, Reachable (machine (.documented xcmrRoot)).step (boot H256.zero) t ∧
        t.shared = (loopAssembled relayNode deliveringNode relayBlock paraBlock).shared ∧
        ∀ p root, loopSubmitting (loopAssembled relayNode deliveringNode relayBlock paraBlock) = some (p, root) →
          submitting t = some (p, root) := by
  refine ⟨by decide +kernel, ?_⟩
  obtain ⟨t, ht, hshared, -, hsubmit⟩ := loops_refine _ _ _ (reaches_loopAssembled (fun _ _ _ => trivial)
    (fun _ _ => trivial) (fun _ _ => trivial) (fun _ _ => trivial) fun _ _ _ => trivial)
  exact ⟨t, ht, hshared, hsubmit⟩

end XcmpPrototype.Relayer
