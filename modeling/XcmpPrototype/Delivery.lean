import XcmpPrototype.Linkage

/-!
# What becomes of a pending message

A pending message root is a key of `MSG_ROOT_MAP`.  The generator takes the least one, looks up the other stages,
removes the root and only then submits the proof.  So a root is lost exactly in those runs in which something goes wrong
after the removal (`generator_keeps_iff`); and a root that cannot be proven yet blocks all larger ones, since no other
root is ever tried (`generateXcmpProof_submits_iff`).
-/

open Scale

namespace XcmpPrototype.Relayer

variable {env : Externals}

/-! ### The history of a run -/

/-- The run is about the root `r`. -/
def isPick (r : H256) : Sigma Answer → Bool
  | ⟨.tryLock .firstMsgRoot, a⟩ => (Option.join a).any fun e => e.1 = r
  | _ => false

def isRemoval (r : H256) : Sigma Answer → Bool
  | ⟨.tryLock (.removeMsgRoot r'), a⟩ => r' = r && (Option.join a).isSome
  | _ => false

/-- The extrinsic is in a block and succeeded. -/
def isSuccess : Sigma Answer → Bool
  | ⟨.request .waitForSuccess, a⟩ => Option.isSome a
  | _ => false

/-- A request that follows the removal failed. -/
def isFailedDelivery : Sigma Answer → Bool
  | ⟨.request .runtimeApiAtLatest, a⟩ => Option.isNone a
  | ⟨.request (.signAndSubmit ..), a⟩ => Option.isNone a
  | ⟨.request .waitForInBlock, a⟩ => Option.isNone a
  | ⟨.request .waitForSuccess, a⟩ => Option.isNone a
  | _ => false

/-- A run drops no message: what it removed was delivered, and a root that was not delivered is still pending. -/
structure Keeps (h : Hist Answer) (m : Maps) : Prop where
  removed : ∀ r, h.any (isRemoval r) = true → h.any isSuccess = true
  pending : ∀ r, h.any (isPick r) = true → h.any isSuccess = false → r ∈ m.msgRootMap

/-! ### Removal and delivery -/

/-- Questions of the lookups. -/
def IsLookUp : Query → Prop
  | .request r => r = .blocksAtLatest
  | .tryLock x => ∀ r, x ≠ .removeMsgRoot r

private theorem lookUpStages_isLookUp :
    Prog.wp (fun _ _ => True) (fun _ => IsLookUp) [] lookUpStages (fun _ _ => True) := by
  simp only [lookUpStages, request, tryLock, orError, Prog.wp_bind, Prog.wp_query, Prog.wp_pure, Prog.onOk_ok,
    Prog.wp_ofOption, Prog.wp_check, Prog.onOk_error, IsLookUp, ne_eq, reduceCtorEq, not_false_eq_true, implies_true,
    and_self]

/-- Nothing was removed and no delivery was tried. -/
structure Untouched (h : Hist Answer) : Prop where
  removal : ∀ r, h.any (isRemoval r) = false
  success : h.any isSuccess = false
  failed : h.any isFailedDelivery = false

private theorem untouched_of_isLookUp {h : Hist Answer} (hh : ∀ x ∈ h, IsLookUp x.1) : Untouched h := by
  refine ⟨fun r => ?_, ?_, ?_⟩
  · refine List.any_eq_false.2 fun x hx => ?_
    have := hh x hx
    unfold isRemoval
    split
    · exact absurd rfl (this _)
    · simp
  · refine List.any_eq_false.2 fun x hx => ?_
    have := hh x hx
    unfold isSuccess
    split
    · cases this
    · simp
  · refine List.any_eq_false.2 fun x hx => ?_
    have := hh x hx
    unfold isFailedDelivery
    split
    · cases this
    · cases this
    · cases this
    · cases this
    · simp

/-- What a run removed was delivered, exactly when no request after the removal failed. -/
def DeliversIff (h : Hist Answer) : Prop :=
  (∀ r, h.any (isRemoval r) = true → h.any isSuccess = true) ↔ h.any isFailedDelivery = false

private theorem Untouched.deliversIff {h : Hist Answer} (hh : Untouched h) (new : Hist Answer)
    (hnew : DeliversIff new) : DeliversIff (new ++ h) := by
  simpa only [DeliversIff, List.any_append, hh.removal, hh.success, hh.failed, Bool.or_false] using hnew

private theorem Untouched.removeAndSubmit {h : Hist Answer} (hh : Untouched h) (stages : H256 × XcmpProof × H256) :
    Prog.wp (fun _ _ => True) (fun _ _ => True) h (removeAndSubmit stages) fun h' _ => DeliversIff h' := by
  simp only [Relayer.removeAndSubmit, submitXcmpProof, request, tryLock, orError, Prog.wp_bind, Prog.wp_query,
    Prog.onOk_ok, Prog.wp_ofOption, Prog.onOk_error, true_and, forall_const]
  intro removed
  -- one case for each request that may end the delivery
  refine ⟨fun v hv api => ⟨?_, ?_⟩, fun hv => ?_⟩
  · rintro _ rfl _ tx
    refine ⟨?_, ?_⟩
    · rintro _ rfl txInBlock
      split
      · rename_i hin
        refine ⟨trivial, fun success _ => hh.deliversIff [_, _, _, _, _, _] ?_⟩
        have hsome := Option.isNone_eq_false_iff.2 hin
        cases success <;> simp [DeliversIff, isRemoval, isSuccess, isFailedDelivery, hv, hsome]
      · rename_i hin
        refine hh.deliversIff [_, _, _, _, _] ?_
        simp [DeliversIff, isRemoval, isSuccess, isFailedDelivery, hv, Option.not_isSome_iff_eq_none.1 hin]
    · rintro rfl
      refine hh.deliversIff [_, _, _, _] ?_
      simp [DeliversIff, isRemoval, isSuccess, isFailedDelivery, hv]
  · rintro rfl
    refine hh.deliversIff [_, _] ?_
    simp [DeliversIff, isRemoval, isSuccess, isFailedDelivery, hv]
  · refine hh.deliversIff [_] ?_
    simp [DeliversIff, isRemoval, isSuccess, isFailedDelivery, hv]

private theorem generateXcmpProof_delivers :
    Prog.wp (fun _ _ => True) (fun _ _ => True) [] generateXcmpProof fun h _ => DeliversIff h := by
  rw [generateXcmpProof, Prog.wp_bind]
  refine Prog.wp_mono ?_ (Prog.wp_hist (by simp) lookUpStages_isLookUp)
  intro h r hh
  have huntouched := untouched_of_isLookUp hh
  cases r with
  | error e => exact huntouched.deliversIff [] (by simp [DeliversIff])
  | ok stages => exact huntouched.removeAndSubmit stages

/-! ### Pending roots -/

/-- An access removes a root or keeps it. -/
private theorem isRemoval_or_mem_write {m : Maps} {r : H256} (hr : r ∈ m.msgRootMap) (x : Access) :
    isRemoval r ⟨.tryLock x, some (x.read m)⟩ = true ∨ r ∈ (x.write m).msgRootMap := by
  cases x with
  | insertMsgRoot root proof => exact Or.inr (Std.TreeMap.mem_insert.2 (Or.inr hr))
  | removeMsgRoot root =>
    by_cases heq : root = r
    · subst heq
      left
      simpa [isRemoval, Access.read] using hr
    · right
      refine Std.TreeMap.mem_erase.2 ⟨fun h => heq (Std.LawfulEqOrd.eq_of_compare h), hr⟩
  | _ => exact Or.inr hr

private theorem mem_write_of_isPick {m : Maps} {r : H256} {x : Access}
    (hx : isPick r ⟨.tryLock x, some (x.read m)⟩ = true) : r ∈ (x.write m).msgRootMap := by
  cases x with
  | firstMsgRoot =>
    obtain ⟨e, he, hr⟩ := (Option.any_eq_true _ _).1 hx
    obtain rfl := of_decide_eq_true hr
    have hmem := List.mem_of_head? he
    show e.1 ∈ m.msgRootMap
    rw [Std.TreeMap.mem_iff_isSome_getElem?, Std.TreeMap.mem_toList_iff_getElem?_eq_some.1 hmem]
    rfl
  | _ => cases hx

/-- A root that the generator has taken up is removed by it or still pending. -/
def TakenUp (h : Hist Answer) (m : Maps) : Prop :=
  ∀ r, h.any (isPick r) = true → h.any (isRemoval r) = true ∨ r ∈ m.msgRootMap

private theorem TakenUp.handled {s s' : Shared} {h : Hist Answer} (hs : TakenUp h s.maps) {q : Query} {a : Answer q}
    (hh : Handled s q a s') : TakenUp (⟨q, a⟩ :: h) s'.maps := by
  intro r hr
  rw [List.any_cons, Bool.or_eq_true] at hr
  rw [List.any_cons, Bool.or_eq_true]
  cases hh with
  | request q a =>
    have hp : isPick r ⟨.request q, a⟩ = false := rfl
    rw [hp] at hr
    exact (hs r (hr.resolve_left (by simp))).imp_left Or.inr
  | busy x =>
    have hp : isPick r ⟨.tryLock x, none⟩ = false := by cases x <;> rfl
    rw [hp] at hr
    exact (hs r (hr.resolve_left (by simp))).imp_left Or.inr
  | locked x =>
    rcases hr with hr | hr
    · exact Or.inr (mem_write_of_isPick hr)
    · rcases hs r hr with hrem | hmem
      · exact Or.inl (Or.inr hrem)
      · exact (isRemoval_or_mem_write hmem x).imp_left Or.inl

private theorem TakenUp.other {s s' : Shared} {h : Hist Answer} (hs : TakenUp h s.maps) {q : Query} {a : Answer q}
    {i : TaskId} (hi : i ≠ .generator) (hq : AskedBy i q) (hh : Handled s q a s') : TakenUp h s'.maps := by
  intro r hr
  rcases hs r hr with hrem | hmem
  · exact Or.inl hrem
  · cases hh with
    | request q a => exact Or.inr hmem
    | busy x => exact Or.inr hmem
    | locked x =>
      refine Or.inr ((isRemoval_or_mem_write hmem x).resolve_left ?_)
      cases x with
      | removeMsgRoot root => exact absurd hq.symm hi
      | _ => simp [isRemoval]

def dropSpec : Machine.Spec TaskId Shared Block Answer Failure where
  inv _ := True
  loc
    | .generator, _, s, h => TakenUp h s.maps
    | _, _, _, _ => True
  known _ _ _ _ := True
  asked i _ _ q := i ≠ .generator → AskedBy i q
  post
    | .generator, _, h, _ => DeliversIff h
    | _, _, _, _ => True

theorem dropSpec_sound (env : Externals) : dropSpec.Sound (machine env) (fun _ _ => True) where
  body i b := by
    cases i with
    | generator =>
      exact Prog.wp_mono_asked (fun _ _ _ => trivial) (fun _ _ _ hi => absurd rfl hi) generateXcmpProof_delivers
    | _ => exact Prog.wp_mono_asked (fun _ _ _ => trivial) (fun _ _ hq _ => hq) (body_askedBy env _ b)
  start i b shared _ := by
    cases i with
    | generator => intro r hr; cases hr
    | _ => trivial
  answer s i b h q k a shared _ _ hloc _ _ hh := by
    refine ⟨trivial, ?_, trivial⟩
    cases i with
    | generator => exact TakenUp.handled hloc (handled_of_handle hh)
    | _ => trivial
  other i j b c h h' q a s s' hij hloc hasked hh := by
    cases i with
    | generator => exact TakenUp.other hloc hij.symm (hasked hij.symm) (handled_of_handle hh)
    | _ => trivial
  world s w _ := by
    refine ⟨trivial, fun i b h hloc => ?_⟩
    cases i with
    | generator => exact hloc
    | _ => trivial

/-- In every run of the relayer, from any maps, and for every finished run of the generator: no message is dropped
exactly when every request that follows the removal succeeds. -/
theorem generator_keeps_iff (env : Externals) (shared : Shared) (s : State)
    (h : Reachable (machine env).step (.init shared) s) (x : Machine.Ended TaskId Shared Block Answer Failure)
    (hx : x ∈ s.ended) (hgen : x.task = .generator) :
    Keeps x.hist x.shared.maps ↔ x.hist.any isFailedDelivery = false := by
  have hs := (dropSpec_sound env).holds shared trivial h
  obtain ⟨hpost, hloc⟩ := hs.ended x hx
  rw [hgen] at hpost hloc
  refine ⟨fun hk => hpost.1 hk.removed, fun hf => ⟨hpost.2 hf, ?_⟩⟩
  intro r hpick hsucc
  refine (hloc r hpick).resolve_left fun hrem => ?_
  rw [hpost.2 hf r hrem] at hsucc
  cases hsucc

/-- The answers of the nodes when the message of `collected` is delivered. -/
def deliveringNode : Nodes := paraNode paraBlock (.repeatByte 0x21)

/-- The same, but the transaction is not taken. -/
def refusingNode : Nodes := fun best r => match r with
  | .signAndSubmit .. => none
  | r => deliveringNode best r

/-- After one call of the generator. -/
def generated (nodes : Nodes) : State := relayer.perform (freeReply nodes) collected .generator paraBlock

theorem reachable_generated (nodes : Nodes) : Reachable relayer.step (boot H256.zero) (generated nodes) :=
  reachable_collected.trans (reachable_perform nodes paraBlock collected_generator)

theorem generator_keeps_iff_delivering :
    ∃ x ∈ (generated deliveringNode).ended, x.task = .generator ∧ x.hist.any (isRemoval (.repeatByte 0x21)) = true ∧
      Keeps x.hist x.shared.maps := by
  have hx : (generated deliveringNode).ended.any (fun x => x.task = .generator ∧
      x.hist.any (isRemoval (.repeatByte 0x21)) = true ∧ x.hist.any isFailedDelivery = false) = true := by
    decide +kernel
  obtain ⟨x, hmem, hx⟩ := List.any_eq_true.1 hx
  obtain ⟨hgen, hrem, hfailed⟩ := of_decide_eq_true hx
  exact ⟨x, hmem, hgen, hrem,
    (generator_keeps_iff _ ⟨.empty, H256.zero⟩ _ (reachable_generated deliveringNode) x hmem hgen).2 hfailed⟩

/-- A message that was ready is gone after a submission that failed. -/
theorem generator_drops_refused :
    Reachable relayer.step (boot H256.zero) (generated refusingNode) ∧
      H256.repeatByte 0x21 ∈ collected.shared.maps.msgRootMap ∧
      H256.repeatByte 0x21 ∉ (generated refusingNode).shared.maps.msgRootMap ∧
      ∃ x ∈ (generated refusingNode).ended, x.task = .generator ∧ x.hist.any (isPick (.repeatByte 0x21)) = true ∧
        x.result.isOk = false ∧ ¬ Keeps x.hist x.shared.maps := by
  have hx : (generated refusingNode).ended.any (fun x => x.task = .generator ∧
      x.hist.any (isPick (.repeatByte 0x21)) = true ∧ x.hist.any (isRemoval (.repeatByte 0x21)) = true ∧
      x.hist.any isSuccess = false ∧ x.result.isOk = false) = true := by
    decide +kernel
  obtain ⟨x, hmem, hx⟩ := List.any_eq_true.1 hx
  obtain ⟨hgen, hpick, hrem, hsuccess, hresult⟩ := of_decide_eq_true hx
  refine ⟨reachable_generated refusingNode, by decide +kernel, by decide +kernel, x, hmem, hgen, hpick, hresult, ?_⟩
  intro hk
  rw [hk.removed _ hrem] at hsuccess
  cases hsuccess

/-! ### Which root is tried -/

/-- The proof for a root whose stages are all found and decodable, and the BEEFY root it is for. -/
def chain (m : Maps) (r : H256) : Option (XcmpProof × H256) := do
  let stage4 ← m.msgRootMap[r]?
  let stage3 ← m.msgRootChannelMerkleMap[r]?
  let stage4Leaves ← decodeLeaves stage4.leaves
  let stage4Proof ← decodeProof stage4.proof
  let stage2 ← m.paraHeadersMap[stage3.root]?
  let stage1 ← List.getLast? (Access.read m (.beefyEntries stage2.root))
  let stage1Leaves ← decodeLeaves stage1.2.leaves
  let stage1Proof ← decodeProof stage1.2.proof
  return (⟨(stage1Proof, stage1Leaves), stage2, stage3, (stage4Proof, stage4Leaves)⟩, stage1.1)

/-- The least pending root. -/
def IsLeastPending (m : Maps) (r : H256) : Prop := r ∈ m.msgRootMap ∧ ∀ k ∈ m.msgRootMap, (compare r k).isLE

variable {nodes : Nodes} {s : Shared} {h : Hist Answer}

private theorem alone_lookUpStages (hnodes : ∀ best r, (nodes best r).isSome) :
    ∃ h', Prog.alone (fun _ => false) (freeReply nodes) s h lookUpStages =
      (s, h', Prog.ofOption .error (s.maps.msgRootMap.toList.head?.bind fun e =>
        (chain s.maps e.1).map fun p => (e.1, p))) := by
  obtain ⟨u, hu⟩ := Option.isSome_iff_exists.1 (hnodes s.relayBest .blocksAtLatest)
  simp only [lookUpStages, request, tryLock, orError, Prog.alone_query_bind, Prog.alone_ofOption_bind,
    Prog.alone_check_bind, Prog.alone_pure, freeReply, hu, Access.read, Access.write, Option.join_some,
    Option.getD_some]
  cases hfirst : s.maps.msgRootMap.toList.head? with
  | none => exact ⟨_, rfl⟩
  | some e =>
    have hstage4 : s.maps.msgRootMap[e.1]? = some e.2 :=
      Std.TreeMap.mem_toList_iff_getElem?_eq_some.1 (List.mem_of_head? hfirst)
    simp only [chain, hstage4, Option.bind_eq_bind, Option.bind_some, Access.read]
    have hcontains : s.maps.msgRootChannelMerkleMap.contains e.1 = (s.maps.msgRootChannelMerkleMap[e.1]?).isSome :=
      Std.TreeMap.contains_eq_isSome_getElem?
    rw [hcontains]
    -- a missing or undecodable stage ends both sides
    rcases s.maps.msgRootChannelMerkleMap[e.1]? with _ | stage3
    · exact ⟨_, rfl⟩
    rcases decodeLeaves e.2.leaves with _ | stage4Leaves
    · exact ⟨_, rfl⟩
    rcases decodeProof e.2.proof with _ | stage4Proof
    · exact ⟨_, rfl⟩
    simp only [Option.bind_some]
    rcases s.maps.paraHeadersMap[stage3.root]? with _ | stage2
    · exact ⟨_, rfl⟩
    simp only [Option.bind_some]
    generalize List.getLast? ((s.maps.leavesBeefyMmrMap.toList.filter fun x => x.1.1 = stage2.root).map Prod.snd) = last
    rcases last with _ | stage1
    · exact ⟨_, rfl⟩
    simp only [Option.bind_some]
    rcases decodeLeaves stage1.2.leaves with _ | stage1Leaves
    · exact ⟨_, rfl⟩
    simp only [Option.bind_some]
    rcases decodeProof stage1.2.proof with _ | stage1Proof
    · exact ⟨_, rfl⟩
    · exact ⟨_, rfl⟩

theorem alone_lookUpStages_isLookUp (hnodes : ∀ best r, (nodes best r).isSome) :
    ∃ h', Prog.alone (fun _ => false) (freeReply nodes) s [] lookUpStages =
        (s, h', Prog.ofOption .error (s.maps.msgRootMap.toList.head?.bind fun e =>
          (chain s.maps e.1).map fun p => (e.1, p))) ∧ ∀ x ∈ h', IsLookUp x.1 := by
  obtain ⟨h', hl⟩ := alone_lookUpStages (s := s) (h := []) hnodes
  have h := Prog.wp_alone (freeReply nodes) (fun _ _ => trivial) (Prog.wp_hist (by simp) lookUpStages_isLookUp) s
  rw [hl] at h
  refine ⟨h', hl, ?_⟩
  generalize (s.maps.msgRootMap.toList.head?.bind fun e => (chain s.maps e.1).map fun p => (e.1, p)) = found at h
  cases found with
  | none => exact h
  | some stages => exact h

private theorem isLeastPending_iff {m : Maps} {r : H256} :
    IsLeastPending m r ↔ ∃ v, m.msgRootMap.toList.head? = some (r, v) := by
  rw [IsLeastPending, ← Std.TreeMap.minKey?_eq_some_iff_mem_and_forall, Std.TreeMap.minKey?_eq_head?_keys,
    ← Std.TreeMap.map_fst_toList_eq_keys, List.head?_map]
  constructor
  · intro h
    obtain ⟨e, he, rfl⟩ := Option.map_eq_some_iff.1 h
    exact ⟨e.2, he⟩
  · rintro ⟨v, hv⟩
    rw [hv]
    rfl

/-- The root that is tried, with its proof. -/
theorem found_eq_some_iff {m : Maps} {r : H256} {x : XcmpProof × H256} :
    (m.msgRootMap.toList.head?.bind fun e => (chain m e.1).map fun p => (e.1, p)) = some (r, x) ↔
      IsLeastPending m r ∧ chain m r = some x := by
  rw [isLeastPending_iff]
  cases hfirst : m.msgRootMap.toList.head? with
  | none => simp
  | some e =>
    simp only [Option.bind_some, Option.map_eq_some_iff, Prod.mk.injEq, Option.some.injEq]
    constructor
    · rintro ⟨p, hp, rfl, rfl⟩
      exact ⟨⟨e.2, rfl⟩, hp⟩
    · rintro ⟨⟨v, rfl⟩, hx⟩
      exact ⟨x, hx, rfl, rfl⟩

/-- The questions and answers of one call of the generator, with all locks free. -/
def callAlone (nodes : Nodes) (s : Shared) : Hist Answer :=
  (Prog.alone (fun _ => false) (freeReply nodes) s [] generateXcmpProof).2.1

private theorem mem_removeAndSubmit_iff (hnodes : ∀ best r, (nodes best r).isSome) {stages : H256 × XcmpProof × H256}
    (hstages : stages.1 ∈ s.maps.msgRootMap) {p : XcmpProof} {root : H256}
    (hnot : ⟨.request (.signAndSubmit p root), some ()⟩ ∉ h) :
    ⟨.request (.signAndSubmit p root), some ()⟩ ∈
        (Prog.alone (fun _ => false) (freeReply nodes) s h (removeAndSubmit stages)).2.1 ↔ stages.2 = (p, root) := by
  obtain ⟨v, hv⟩ := Option.isSome_iff_exists.1 (Std.TreeMap.mem_iff_isSome_getElem?.1 hstages)
  obtain ⟨api, hapi⟩ := Option.isSome_iff_exists.1 (hnodes s.relayBest .runtimeApiAtLatest)
  obtain ⟨tx, htx⟩ := Option.isSome_iff_exists.1 (hnodes s.relayBest (.signAndSubmit stages.2.1 stages.2.2))
  obtain ⟨inBlock, hinBlock⟩ := Option.isSome_iff_exists.1 (hnodes s.relayBest .waitForInBlock)
  simp only [removeAndSubmit, submitXcmpProof, request, tryLock, orError, Prog.alone_query_bind,
    Prog.alone_ofOption_bind, Prog.alone_pure, freeReply, Access.read, Access.write, Option.join_some, hv, hapi, htx,
    hinBlock, Option.isSome_some, ↓reduceIte]
  simp only [List.mem_cons, hnot, Sigma.mk.injEq, Query.request.injEq, reduceCtorEq, Request.signAndSubmit.injEq,
    false_and, false_or, or_false, heq_eq_eq, and_true]
  rw [Prod.ext_iff, eq_comm, @eq_comm _ root]

/-- With all locks free and all requests successful, one call submits a proof exactly if the least pending root has all
its stages, and the proof is the one for that root. -/
theorem generateXcmpProof_submits_iff (nodes : Nodes) (hnodes : ∀ best r, (nodes best r).isSome) (s : Shared)
    (p : XcmpProof) (root : H256) :
    ⟨.request (.signAndSubmit p root), some ()⟩ ∈ callAlone nodes s ↔
      ∃ r, IsLeastPending s.maps r ∧ chain s.maps r = some (p, root) := by
  obtain ⟨h', hl, hlookUp⟩ := alone_lookUpStages_isLookUp (s := s) hnodes
  have hnot : ⟨.request (.signAndSubmit p root), some ()⟩ ∉ h' := fun hmem => nomatch hlookUp _ hmem
  simp only [← found_eq_some_iff]
  rw [callAlone, generateXcmpProof, Prog.alone_bind, hl]
  cases hfound : s.maps.msgRootMap.toList.head?.bind fun e => (chain s.maps e.1).map fun p => (e.1, p) with
  | none => simp [Prog.ofOption, hnot]
  | some stages =>
    refine (mem_removeAndSubmit_iff hnodes (found_eq_some_iff.1 hfound).1.1 hnot).trans ?_
    constructor
    · intro h2
      exact ⟨stages.1, by rw [← h2]⟩
    · rintro ⟨r, hr⟩
      rw [Option.some.inj hr]

theorem generateXcmpProof_submits_iff_collected :
    ∃ p root, (∃ r, IsLeastPending collected.shared.maps r ∧ chain collected.shared.maps r = some (p, root)) ∧
      ⟨.request (.signAndSubmit p root), some ()⟩ ∈ callAlone deliveringNode collected.shared := by
  have hfirst : collected.shared.maps.msgRootMap.toList.head?.any (fun e => e.1 = .repeatByte 0x21) = true := by
    decide +kernel
  have hchain : (chain collected.shared.maps (.repeatByte 0x21)).isSome = true := by decide +kernel
  obtain ⟨e, he, hr⟩ := (Option.any_eq_true _ _).1 hfirst
  obtain ⟨x, hx⟩ := Option.isSome_iff_exists.1 hchain
  have hleast : IsLeastPending collected.shared.maps (.repeatByte 0x21) :=
    isLeastPending_iff.2 ⟨e.2, by rw [he, ← of_decide_eq_true hr]⟩
  refine ⟨x.1, x.2, ⟨_, hleast, hx⟩, ?_⟩
  exact (generateXcmpProof_submits_iff deliveringNode (fun _ r => by cases r <;> rfl) collected.shared x.1 x.2).2
    ⟨_, hleast, hx⟩

/-- A block with a smaller root of messages, for which the node has no channel proof. -/
def forkNode : Nodes := fun best r => match r with
  | .getXcmpChannelsProof .. => some none
  | r => paraNode ⟨.repeatByte 0x30, 8⟩ (.repeatByte 0x01) best r

/-- The para collector has seen that block too. -/
def blocked : State := relayer.perform (freeReply forkNode) collected .para ⟨.repeatByte 0x30, 8⟩

private def isIdle : Machine.Task Block Answer Failure → Bool
  | .idle => true
  | _ => false

private theorem eq_idle {t : Machine.Task Block Answer Failure} (h : isIdle t = true) : t = .idle := by
  cases t with
  | idle => rfl
  | _ => cases h

theorem collected_para : collected.tasks .para = .idle := eq_idle (by decide +kernel)

theorem collected_relay : collected.tasks .relay = .idle := eq_idle (by decide +kernel)

theorem reachable_blocked : Reachable relayer.step (boot H256.zero) blocked :=
  reachable_collected.trans (reachable_perform _ _ collected_para)

/-- A root that is ready stays behind a smaller one that is not. -/
theorem generateXcmpProof_blocked :
    Reachable relayer.step (boot H256.zero) blocked ∧
      H256.repeatByte 0x21 ∈ blocked.shared.maps.msgRootMap ∧
      (chain blocked.shared.maps (.repeatByte 0x21)).isSome = true ∧ (∀ best r, (deliveringNode best r).isSome) ∧
      ∀ p root, ⟨.request (.signAndSubmit p root), some ()⟩ ∉ callAlone deliveringNode blocked.shared := by
  have hnone : (callAlone deliveringNode blocked.shared).any (fun x => isSubmission x.1) = false := by
    decide +kernel
  refine ⟨reachable_blocked, by decide +kernel, by decide +kernel, fun _ r => by cases r <;> rfl, ?_⟩
  intro p root hmem
  exact absurd rfl (List.any_eq_false.1 hnone _ hmem)

end XcmpPrototype.Relayer
