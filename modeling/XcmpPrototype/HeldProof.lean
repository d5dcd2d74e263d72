import XcmpPrototype.Loops

/-!
# The root and the proof that the main loop holds

The loop of `get_proof_and_verify` carries a root and a proof of messages from turn to turn.  What it holds can be read
off its questions and answers: the last root and the last proof that it fetched, until a test proof was taken.  In every
run (`mainLoop_calls`) a root is announced only while it is held; a test proof is submitted only if it is the one that
is held and its root was reported to be on chain in the same turn, so no pair is taken twice; and the loop ends with an
error only after one of the few requests that it does not go on without.
-/

open Scale

namespace XcmpPrototype.Relayer

abbrev LoopHist := Hist (Prog.Around Answer LoopAnswer)

/-! ### What is held -/

/-- What an answer does to the root that is held: it is replaced, or used up. -/
def rootEffect : Sigma (Prog.Around Answer LoopAnswer) → Option (Option H256)
  | ⟨.inr (.node (.mmrRoot ..)), some (some root)⟩ => some (some root)
  | ⟨.inr (.submitTestProof ..), some _⟩ => some none
  | _ => none

def proofEffect : Sigma (Prog.Around Answer LoopAnswer) → Option (Option LeavesProof)
  | ⟨.inr (.node (.generateProof ..)), some (some proof)⟩ => some (some proof)
  | ⟨.inr (.submitTestProof ..), some _⟩ => some none
  | _ => none

/-- A turn starts without a report of the root on chain; a report that fails counts as zero. -/
def reportEffect : Sigma (Prog.Around Answer LoopAnswer) → Option (Option H256)
  | ⟨.inr (.fetchChannelRoot _), a⟩ => some (some ((Option.join a).getD H256.zero))
  | ⟨.inr .nextBlock, _⟩ => some none
  | _ => none

def heldRoot (h : LoopHist) : Option H256 := (h.findSome? rootEffect).join

def heldProof (h : LoopHist) : Option LeavesProof := (h.findSome? proofEffect).join

/-- The root that was reported to be on chain in this turn. -/
def onchainRoot (h : LoopHist) : Option H256 := (h.findSome? reportEffect).join

/-- The calls of the loop to the chain, after the questions in `h`. -/
def CallAsked (h : LoopHist) : Query ⊕ LoopRequest → Prop
  | .inr (.updateRoot root channelId) => channelId = 0 ∧ heldRoot h = some root
  | .inr (.submitTestProof proof leaves channelId) => channelId = 0 ∧
      (∃ root, heldRoot h = some root ∧ onchainRoot h = some root) ∧
      ∃ v, heldProof h = some v ∧ decodeLeaves v.leaves = some leaves ∧ decodeProof v.proof = some proof
  | _ => True

/-- The answers that the loop does not go on after. -/
def IsFatal : Sigma (Prog.Around Answer LoopAnswer) → Prop
  | ⟨.inr .subscribeBest, a⟩ => a = none
  | ⟨.inr .nextBlock, a⟩ => a = some none
  | ⟨.inr .storageAtLatest, a⟩ => a = none
  | ⟨.inr (.node (.mmrRoot ..)), a⟩ => Option.join a = none
  | ⟨.inr (.node (.generateProof ..)), a⟩ => Option.join a = none
  | ⟨.inr (.verifyProofStateless ..), a⟩ => Option.join a = none
  | _ => False

/-- An error is the failure of the last request, which was fatal. -/
def EndsFatally (h : LoopHist) (r : Except Failure Unit) : Prop :=
  ∀ e, r = .error e → e = .error ∧ ∃ x past, h = x :: past ∧ IsFatal x

/-! ### Questions that change nothing -/

/-- A question that neither changes what is held nor reports a root. -/
structure Silent (x : Sigma (Prog.Around Answer LoopAnswer)) : Prop where
  root : rootEffect x = none
  proof : proofEffect x = none
  report : reportEffect x = none

private theorem silent_of_isLeft {x : Sigma (Prog.Around Answer LoopAnswer)} (hx : x.1.isLeft = true) : Silent x := by
  obtain ⟨q | r, a⟩ := x
  · exact ⟨rfl, rfl, rfl⟩
  · cases hx

private theorem findSome?_append_silent {β : Type} {f : Sigma (Prog.Around Answer LoopAnswer) → Option (Option β)}
    {new : LoopHist} (hnew : ∀ x ∈ new, f x = none) (h : LoopHist) :
    ((new ++ h).findSome? f).join = (h.findSome? f).join := by
  rw [List.findSome?_append, List.findSome?_eq_none_iff.2 hnew, Option.none_or]

/-- Nothing changes with silent questions. -/
private theorem held_append {new : LoopHist} (hnew : ∀ x ∈ new, Silent x) (h : LoopHist) :
    heldRoot (new ++ h) = heldRoot h ∧ heldProof (new ++ h) = heldProof h ∧ onchainRoot (new ++ h) = onchainRoot h :=
  ⟨findSome?_append_silent (fun x hx => (hnew x hx).root) h, findSome?_append_silent (fun x hx => (hnew x hx).proof) h,
    findSome?_append_silent (fun x hx => (hnew x hx).report) h⟩

/-! ### Parts of a turn -/

section Parts

variable {Φ : (q : Query ⊕ LoopRequest) → Prog.Around Answer LoopAnswer q → Prop} {h : LoopHist}

private theorem wp_watch {post : LoopHist → Except Failure Unit → Prop}
    (hpost : ∀ new, (∀ x ∈ new, Silent x) → post (new ++ h) (.ok ())) : Prog.wp Φ CallAsked h Loop.watch post := by
  simp only [Loop.watch, Loop.request, Prog.wp_bind, Prog.wp_query, Prog.onOk_ok]
  refine ⟨trivial, fun txInBlock _ => ?_⟩
  have hwait : Silent ⟨.inr (.node .waitForInBlock), txInBlock⟩ := ⟨rfl, rfl, rfl⟩
  split
  · refine ⟨trivial, fun success _ => hpost [_, _] ?_⟩
    intro x hx
    rcases List.mem_pair.1 hx with rfl | rfl
    · exact ⟨rfl, rfl, rfl⟩
    · exact hwait
  · refine hpost [_] ?_
    intro x hx
    rw [List.mem_singleton.1 hx]
    exact hwait

private theorem wp_updateRoot {root : H256} (hroot : heldRoot h = some root)
    {post : LoopHist → Except Failure Unit → Prop}
    (hpost : ∀ new r, (∀ x ∈ new, Silent x) → r ≠ .error .panic → post (new ++ h) r) :
    Prog.wp Φ CallAsked h (Loop.updateRoot root) post := by
  simp only [Loop.updateRoot, Loop.request, Loop.orError, Prog.wp_bind, Prog.wp_query, Prog.onOk_ok, Prog.wp_ofOption,
    Prog.onOk_error]
  refine ⟨⟨rfl, hroot⟩, fun txProgress _ => ?_⟩
  have hcall : Silent ⟨.inr (.updateRoot root 0), txProgress⟩ := ⟨rfl, rfl, rfl⟩
  refine ⟨fun _ _ => wp_watch fun new hnew => ?_, fun _ => ?_⟩
  · have hall := hpost (new ++ [⟨.inr (.updateRoot root 0), txProgress⟩]) (.ok ()) ?_ (by simp)
    · rwa [List.append_assoc, List.singleton_append] at hall
    · intro x hx
      rcases List.mem_append.1 hx with hx | hx
      · exact hnew x hx
      · rw [List.mem_singleton.1 hx]
        exact hcall
  · refine hpost [_] _ ?_ (by simp)
    intro x hx
    rw [List.mem_singleton.1 hx]
    exact hcall

/-- A proof that was not taken leaves the history as it was, but for the call itself. -/
private theorem wp_submitProof {v : LeavesProof} {root : H256} (hroot : heldRoot h = some root)
    (honchain : onchainRoot h = some root) (hproof : heldProof h = some v)
    {post : LoopHist → Except Failure Unit → Prop} (htaken : ∀ new, post (new ++ h) (.ok ()))
    (hrefused : ∀ new, (∀ x ∈ new, Silent x) → post (new ++ h) (.error .error)) :
    Prog.wp Φ CallAsked h (Loop.submitProof v) post := by
  simp only [Loop.submitProof, Loop.request, Loop.orError, Prog.wp_bind, Prog.wp_query, Prog.onOk_ok, Prog.wp_ofOption,
    Prog.onOk_error]
  refine ⟨fun leaves hleaves => ⟨fun proof hdecoded => ⟨?_, fun txProgress _ => ⟨fun _ _ => ?_, ?_⟩⟩, ?_⟩, ?_⟩
  · exact ⟨rfl, ⟨root, hroot, honchain⟩, v, hproof, hleaves, hdecoded⟩
  · refine wp_watch fun new _ => ?_
    have htaken' := htaken (new ++ [⟨.inr (.submitTestProof proof leaves 0), txProgress⟩])
    rwa [List.append_assoc, List.singleton_append] at htaken'
  · rintro rfl
    refine hrefused [_] ?_
    intro x hx
    rw [List.mem_singleton.1 hx]
    exact ⟨rfl, rfl, rfl⟩
  · exact fun _ => hrefused [] (by simp)
  · exact fun _ => hrefused [] (by simp)

/-- A new pair is held, or a request has failed that the loop does not go on without. -/
private theorem wp_fetchHeld {post : LoopHist → Except Failure Loop.Held → Prop}
    (hok : ∀ new held, heldRoot (new ++ h) = some held.root → heldProof (new ++ h) = some held.proof →
      post (new ++ h) (.ok held))
    (herror : ∀ x past, IsFatal x → post (x :: past) (.error .error)) : Prog.wp Φ CallAsked h Loop.fetchHeld post := by
  simp only [Loop.fetchHeld, Loop.generateMmrRoot, Loop.generateMmrProof, Loop.request, Loop.orError, Prog.wp_bind,
    Prog.wp_query, Prog.onOk_ok, Prog.wp_ofOption, Prog.onOk_error, Prog.wp_pure]
  refine ⟨trivial, fun optRoot _ => ⟨fun root hroot => ⟨trivial, fun optProof _ => ⟨fun proof hproof => ?_, ?_⟩⟩, ?_⟩⟩
  · rw [Option.join_eq_some_iff] at hroot hproof
    subst hroot hproof
    exact hok [_, _] ⟨root, proof⟩ rfl rfl
  · exact fun hnone => herror _ _ hnone
  · exact fun hnone => herror _ _ hnone

/-- A turn of the generator never panics. -/
private theorem generateXcmpProof_no_panic :
    Prog.wp (fun _ _ => True) (fun _ _ => True) [] generateXcmpProof fun _ r => r ≠ .error .panic := by
  simp only [generateXcmpProof, lookUpStages, removeAndSubmit, submitXcmpProof, request, tryLock, Relayer.orError,
    Prog.wp_bind, Prog.wp_query, Prog.wp_pure, Prog.onOk_ok, Prog.wp_ofOption, Prog.wp_check, Prog.onOk_error,
    Except.error.injEq, reduceCtorEq, ne_eq, not_false_eq_true, implies_true, and_true, true_and]
  have hok : (.ok () : Except Failure Unit) ≠ .error .panic := by simp
  intros
  split
  · exact ⟨trivial, fun _ _ => hok⟩
  · exact hok

end Parts

/-! ### Whole turns -/

/-- The loop holds a pair. -/
structure Holding (h : LoopHist) (held : Loop.Held) : Prop where
  root : heldRoot h = some held.root
  proof : heldProof h = some held.proof

/-- A turn ends with a pair, or it was ended by a fatal answer. -/
def TurnEnds (h : LoopHist) : Except Failure Loop.Held → Prop
  | .ok held => Holding h held
  | .error e => EndsFatally h (.error e)

private theorem endsFatally_cons {x : Sigma (Prog.Around Answer LoopAnswer)} {past : LoopHist} (hx : IsFatal x) :
    EndsFatally (x :: past) (.error .error) := by
  rintro e he
  cases he
  exact ⟨rfl, x, past, rfl, hx⟩

variable {Φ : (q : Query ⊕ LoopRequest) → Prog.Around Answer LoopAnswer q → Prop} {h : LoopHist}

private theorem Holding.append {held : Loop.Held} (hh : Holding h held) {new : LoopHist}
    (hnew : ∀ x ∈ new, Silent x) : Holding (new ++ h) held := by
  obtain ⟨hroot, hproof, -⟩ := held_append hnew h
  exact ⟨hroot.trans hh.root, hproof.trans hh.proof⟩

/-- After a part whose errors are ignored the turn goes on. -/
private theorem onAttempt_of_ne_panic {α : Type} {post : LoopHist → Except Failure (Except Failure α) → Prop}
    {r : Except Failure α} (hr : r ≠ .error .panic) (hpost : ∀ r, post h (.ok r)) :
    Prog.onAttempt (fun e => e = .error) post h r := by
  cases r with
  | ok a => exact hpost (.ok a)
  | error e =>
    cases e with
    | error => exact hpost (.error .error)
    | panic => exact absurd rfl hr

/-- The end of a turn, in which `root` was reported. -/
private theorem wp_submitHeld {held : Loop.Held} (hh : Holding h held) {root : H256}
    (hroot : onchainRoot h = some root) :
    Prog.wp Φ CallAsked h (if root = held.root then do
        let submitted ← Loop.attempt (Loop.submitProof held.proof)
        match submitted with
        | .ok _ => Loop.fetchHeld
        | .error _ => pure held
      else
        pure held) TurnEnds := by
  split
  · rename_i heq
    subst heq
    rw [Prog.wp_bind, Loop.attempt, Prog.wp_attempt]
    refine wp_submitProof hh.root hroot hh.proof (fun new => ?_) fun new hnew => ?_
    · refine wp_fetchHeld (fun new' held' hroot' hproof' => ⟨hroot', hproof'⟩) ?_
      exact fun x past hx => endsFatally_cons hx
    · exact hh.append hnew
  · exact hh

private theorem wp_mainTurn {held : Loop.Held} (hh : Holding h held) (b : Block) :
    Prog.wp Φ CallAsked h (Loop.mainTurn held b) TurnEnds := by
  simp only [Loop.mainTurn, Loop.request, Loop.orError, Prog.wp_bind, Prog.wp_query, Prog.onOk_ok, Prog.wp_ofOption,
    Prog.onOk_error]
  refine ⟨trivial, fun storage _ => ⟨fun _ _ => ⟨trivial, fun fetched _ => ?_⟩, ?_⟩⟩
  · have hh' : Holding (⟨.inr (.fetchChannelRoot 0), fetched⟩ :: ⟨.inr .storageAtLatest, storage⟩ :: h) held :=
      ⟨hh.root, hh.proof⟩
    have hreport : onchainRoot (⟨.inr (.fetchChannelRoot 0), fetched⟩ :: ⟨.inr .storageAtLatest, storage⟩ :: h) =
        some ((Option.join fetched).getD H256.zero) := rfl
    generalize (⟨.inr (.fetchChannelRoot 0), fetched⟩ :: ⟨.inr .storageAtLatest, storage⟩ :: h : LoopHist) = h'
      at hh' hreport
    rw [Loop.attempt, Prog.wp_attempt]
    refine wp_updateRoot hh'.root fun new r hnew hr => onAttempt_of_ne_panic hr fun _ => ?_
    rw [Prog.onOk_ok, Prog.wp_bind, Loop.attempt, Prog.wp_attempt]
    refine Prog.wp_turn generateXcmpProof_no_panic (fun _ _ => trivial) fun new' r' hnew' hr' =>
      onAttempt_of_ne_panic hr' fun _ => ?_
    have hsilent : ∀ x ∈ new' ++ new, Silent x := by
      intro x hx
      rcases List.mem_append.1 hx with hx | hx
      · exact silent_of_isLeft (hnew' x hx)
      · exact hnew x hx
    rw [Prog.onOk_ok, ← List.append_assoc]
    exact wp_submitHeld (hh'.append hsilent) ((held_append hsilent h').2.2.trans hreport)
  · rintro rfl
    exact endsFatally_cons rfl

/-- An invariant of a loop over blocks. -/
private theorem wp_forEachBlock {α : Type} {body : α → Block → LoopCode α} {I : LoopHist → α → Prop}
    (hnext : ∀ h a item, I h a → I (⟨.inr .nextBlock, item⟩ :: h) a)
    (hbody : ∀ h a b, I h a → Prog.wp Φ CallAsked h (body a b) fun h r => match r with
      | .ok a => I h a
      | .error e => EndsFatally h (.error e)) (n : ℕ) {a : α} (ha : I h a) :
    Prog.wp Φ CallAsked h (Loop.forEachBlock body n a) EndsFatally := by
  induction n generalizing h a with
  | zero =>
    intro e he
    cases he
  | succ n ih =>
    rw [Loop.forEachBlock, Prog.wp_bind]
    refine ⟨trivial, fun item _ => ?_⟩
    cases item with
    | none =>
      intro e he
      cases he
    | some block =>
      cases block with
      | none => exact endsFatally_cons rfl
      | some b =>
        show Prog.wp Φ CallAsked _ (body a b >>= fun a => Loop.forEachBlock body n a) EndsFatally
        rw [Prog.wp_bind]
        refine Prog.wp_mono ?_ (hbody _ a b (hnext h a _ ha))
        intro h' r hr
        cases r with
        | ok a' => exact ih hr
        | error e => exact hr

private theorem wp_getProofAndVerify (n : ℕ) : Prog.wp Φ CallAsked [] (Loop.getProofAndVerify n) EndsFatally := by
  rw [Loop.getProofAndVerify, Prog.wp_bind]
  refine wp_fetchHeld (fun new held hroot hproof => ?_) fun x past hx => endsFatally_cons hx
  simp only [Loop.request, Loop.orError, Prog.onOk_ok, Prog.wp_bind, Prog.wp_query, Prog.wp_ofOption, Prog.onOk_error]
  refine ⟨trivial, fun verification _ => ⟨fun _ _ => ⟨trivial, fun blocksSub _ => ⟨fun _ _ => ?_, ?_⟩⟩, ?_⟩⟩
  · refine wp_forEachBlock (I := Holding) (fun h held _ hh => ⟨hh.root, hh.proof⟩) (fun h held b hh => ?_) n
      ⟨hroot, hproof⟩
    exact Prog.wp_mono (fun h r hr => by cases r <;> exact hr) (wp_mainTurn hh b)
  · rintro rfl
    exact endsFatally_cons rfl
  · exact fun hnone => endsFatally_cons hnone

/-! ### All runs -/

/-- Every call in the history was due when it was made. -/
def CallsDue (h : LoopHist) : Prop := ∀ new x past, h = new ++ x :: past → CallAsked past x.1

private theorem CallsDue.cons (hh : CallsDue h) {q : Query ⊕ LoopRequest} (hq : CallAsked h q)
    (a : Prog.Around Answer LoopAnswer q) : CallsDue (⟨q, a⟩ :: h) := by
  intro new x past heq
  cases new with
  | nil =>
    obtain ⟨rfl, rfl⟩ := List.cons.inj heq
    exact hq
  | cons y new => exact hh new x past (List.cons.inj heq).2

def callSpec : Machine.Spec TaskId Shared ℕ (Prog.Around Answer LoopAnswer) Failure where
  inv _ := True
  loc i _ _ h := i = .generator → CallsDue h
  known _ _ _ _ := True
  asked i _ h q := i = .generator → CallAsked h q
  post i _ h r := i = .generator → EndsFatally h r

theorem callSpec_sound (env : Externals) : callSpec.Sound (loops env) (fun _ _ => True) where
  body i n := by
    cases i with
    | generator =>
      refine Prog.wp_mono (fun _ _ hr _ => hr) (Prog.wp_mono_asked (fun _ _ hq => hq) ?_ (wp_getProofAndVerify n))
      exact fun _ _ hq _ => hq
    | _ =>
      refine Prog.wp_mono (fun _ _ _ hi => ?_) (Prog.wp_mono_asked (fun _ _ hq => hq) (fun _ _ _ hi => ?_)
        Prog.wp_trivial)
      · cases hi
      · cases hi
  start i n shared _ _ new x past heq := by simp at heq
  answer s i n h q k a shared _ _ hloc hasked _ _ :=
    ⟨trivial, fun hi => (hloc hi).cons (hasked hi) a, trivial⟩
  other _ _ _ _ _ _ _ _ _ _ _ hloc _ _ := hloc
  world _ _ _ := ⟨trivial, fun _ _ _ hloc => hloc⟩

/-- In every run, for all that the loop of `get_proof_and_verify` has asked: a root is announced only while it is held;
a test proof is the decoded form of the proof that is held, and is submitted only after the root that is held was
reported to be on chain in the same turn.  The loop ends with an error only after a fatal answer, never for an
announcement, a turn of the generator or a test proof that failed. -/
theorem mainLoop_calls (env : Externals) (best : H256) (s : LoopState)
    (h : Reachable (loops env).step (loopBoot best) s) :
    (∀ hist ∈ s.hists .generator, CallsDue hist) ∧
      ∀ x ∈ s.ended, x.task = .generator → EndsFatally x.hist x.result := by
  have hs := (callSpec_sound env).holds _ trivial h
  refine ⟨fun hist hhist => ?_, fun x hx hi => ?_⟩
  · exact hs.hists (fun _ _ _ hloc => hloc rfl) hhist
  · exact (hs.ended x hx).1 hi

/-- A turn in which the root that is held is found on chain. -/
def loopTested : LoopState :=
  (loops (.documented xcmrRoot)).perform (loopReply deliveringNode paraBlock (.repeatByte 0x21))
    (loopCollected relayNode deliveringNode relayBlock paraBlock) .generator 1

def isTestCall : Sigma (Prog.Around Answer LoopAnswer) → Bool
  | ⟨.inr (.submitTestProof ..), a⟩ => Option.isSome a
  | _ => false

theorem mainLoop_calls_tested :
    ∃ hist ∈ loopTested.hists .generator, hist.any isTestCall = true ∧ CallsDue hist := by
  have hany : (loopTested.hists .generator).any (fun hist => hist.any isTestCall) = true := by decide +kernel
  obtain ⟨hist, hmem, htest⟩ := List.any_eq_true.1 hany
  have hreach : Reachable (loops (.documented xcmrRoot)).step (loopBoot H256.zero) loopTested :=
    (reaches_loopCollected (fun _ _ _ => trivial) (fun _ _ => trivial) (fun _ _ => trivial) fun _ _ => trivial).trans
      (reaches_loopPerform loopCollected_generator trivial (fun _ _ => trivial) fun _ => trivial)
  exact ⟨hist, hmem, htest, (mainLoop_calls _ _ _ hreach).1 hist hmem⟩

end XcmpPrototype.Relayer
