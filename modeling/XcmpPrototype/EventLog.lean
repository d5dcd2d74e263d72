import XcmpPrototype.SeenRoots

/-!
# The log of an instance

An instance deposits an event for the leaf of each block, and one for each test proof that it accepts.  The log and the
channel roots after a run can be read off the run alone: a channel root is the one of the last signed `update_root`, and
each event comes from one step and the steps before it (`deposited`).  So a test proof is accepted exactly if it
verifies against the root that the last account has set (`palletRun_log`), and any account can have any root accepted
for which it has a proof: the roots that the relay chain provides play no part.
-/

open Scale

namespace XcmpPrototype

/-- The root that a step sets for a channel. -/
def rootSet (channelId : UInt64) : PalletEvent → Option H256
  | .call (.signed _) (.updateRoot root id) => if id = channelId then some root else none
  | _ => none

/-- The root of the last signed `update_root` for a channel. -/
def lastRoot (es : List PalletEvent) (channelId : UInt64) : Option H256 := es.reverse.findSome? (rootSet channelId)

/-- The event that a step deposits after the steps of `past`. -/
def deposited (env : Externals) (hashOf : Bytes → H256) (cfg : Config) (past : List PalletEvent) :
    PalletEvent → Option Event
  | .block b => some (.xcmpMessageSent (hashOf (byteVec.encode (b.messages cfg.paraIdentifier))) b.parent.1)
  | .call (.signed _) (.submitTestProof mmrProof leaves channelId) =>
    (lastRoot past channelId).bind fun root =>
      if env.verifyLeavesProof root leaves mmrProof then some (.xcmpMessagesAccepted root channelId) else none
  | _ => none

/-- The events deposited by the steps of `es`, which follow those of `past`. -/
def logAfter (env : Externals) (hashOf : Bytes → H256) (cfg : Config) : List PalletEvent → List PalletEvent → List Event
  | _, [] => []
  | past, e :: es => (deposited env hashOf cfg past e).toList ++ logAfter env hashOf cfg (past ++ [e]) es

variable {env : Externals} {hashOf : Bytes → H256} {cfg : Config}

private theorem lastRoot_append_singleton (es : List PalletEvent) (e : PalletEvent) (channelId : UInt64) :
    lastRoot (es ++ [e]) channelId = (rootSet channelId e).or (lastRoot es channelId) := by
  rw [lastRoot, List.reverse_append, List.reverse_singleton, List.singleton_append, List.findSome?_cons]
  cases rootSet channelId e with
  | none => rfl
  | some r => rfl

private theorem logAfter_append_singleton (past es : List PalletEvent) (e : PalletEvent) :
    logAfter env hashOf cfg past (es ++ [e]) =
      logAfter env hashOf cfg past es ++ (deposited env hashOf cfg (past ++ es) e).toList := by
  induction es generalizing past with
  | nil => simp [logAfter]
  | cons e' es ih => simp [logAfter, ih]

/-! ### One step -/

/-- The storage agrees with the steps so far. -/
structure Logged (env : Externals) (hashOf : Bytes → H256) (cfg : Config) (es : List PalletEvent) (s : Storage) :
    Prop where
  roots : ∀ channelId : UInt64, s.xcmpChannelRoots[channelId]? = lastRoot es channelId
  events : s.events = logAfter env hashOf cfg [] es

variable {es : List PalletEvent} {s : Storage}

/-- A step that sets no root and deposits what is due. -/
private theorem Logged.of_same_roots {s' : Storage} {e : PalletEvent} (h : Logged env hashOf cfg es s)
    (hset : ∀ channelId, rootSet channelId e = none) (hroots : s'.xcmpChannelRoots = s.xcmpChannelRoots)
    (hevents : s'.events = s.events ++ (deposited env hashOf cfg es e).toList) :
    Logged env hashOf cfg (es ++ [e]) s' := by
  refine ⟨fun channelId => ?_, ?_⟩
  · rw [hroots, h.roots, lastRoot_append_singleton, hset, Option.none_or]
  · rw [hevents, h.events, logAfter_append_singleton, List.nil_append]

private theorem Logged.updateRoot (h : Logged env hashOf cfg es s) (who : Bytes) (root : H256) (id : UInt64) :
    Logged env hashOf cfg (es ++ [.call (.signed who) (.updateRoot root id)])
      { s with xcmpChannelRoots := s.xcmpChannelRoots.insert id root } := by
  refine ⟨fun channelId => ?_, ?_⟩
  · rw [lastRoot_append_singleton, Std.TreeMap.getElem?_insert, h.roots, rootSet]
    by_cases hid : id = channelId
    · subst hid
      simp
    · have hcmp : compare id channelId ≠ .eq := fun heq => hid (Std.LawfulEqOrd.eq_of_compare heq)
      simp [hid, hcmp]
  · simp [h.events, logAfter_append_singleton, deposited]

/-- A test proof on a storage whose roots are those of the steps so far. -/
private theorem submitTestProof_eq (h : Logged env hashOf cfg es s) (who : Bytes) (mmrProof : MmrProof)
    (leaves : List EncodableOpaqueLeaf) (id : UInt64) :
    (dispatch env s (.signed who) (.submitTestProof mmrProof leaves id)).1 =
      { s with events := s.events ++
          (deposited env hashOf cfg es (.call (.signed who) (.submitTestProof mmrProof leaves id))).toList } := by
  simp only [dispatch, submitTestProof, ensureSigned, h.roots, deposited, bind, Except.bind]
  cases lastRoot es id with
  | none => simp [okOr]
  | some root =>
    cases hverify : env.verifyLeavesProof root leaves mmrProof with
    | false => simp [okOr, ensure, hverify]
    | true => simp [okOr, ensure, hverify, pure, Except.pure]

/-- A call without a signature changes nothing. -/
private theorem dispatch_unsigned {origin : Origin} (horigin : ∀ who, origin ≠ .signed who) (call : Call) :
    (dispatch env s origin call).1 = s := by
  have hsigned : ensureSigned origin = .error .badOrigin := ensureSigned_eq_error.2 ⟨horigin, rfl⟩
  cases call with
  | submitTestProof mmrProof leaves id => simp [dispatch, submitTestProof, hsigned, bind, Except.bind]
  | updateRoot root id => simp [dispatch, XcmpPrototype.updateRoot, hsigned, bind, Except.bind]
  | submitXcmpProof p root => rfl

private theorem Logged.step (h : Logged env hashOf cfg es s) (e : PalletEvent) :
    Logged env hashOf cfg (es ++ [e]) (palletStep env hashOf cfg s e) := by
  cases e with
  | block b => exact h.of_same_roots (fun _ => rfl) rfl rfl
  | call origin call =>
    by_cases hsigned : ∃ who, origin = .signed who
    · obtain ⟨who, rfl⟩ := hsigned
      cases call with
      | submitTestProof mmrProof leaves id =>
        rw [palletStep, submitTestProof_eq h]
        exact h.of_same_roots (fun _ => rfl) rfl rfl
      | updateRoot root id => exact h.updateRoot who root id
      | submitXcmpProof p root => exact h.of_same_roots (fun _ => rfl) rfl (List.append_nil _).symm
    · have horigin : ∀ who, origin ≠ .signed who := fun who hwho => hsigned ⟨who, hwho⟩
      have hstep : palletStep env hashOf cfg s (.call origin call) = s := dispatch_unsigned horigin call
      refine h.of_same_roots (fun _ => ?_) (congrArg Storage.xcmpChannelRoots hstep) ?_
      · cases origin with
        | signed who => exact absurd rfl (horigin who)
        | _ => rfl
      · rw [hstep]
        cases origin with
        | signed who => exact absurd rfl (horigin who)
        | _ => exact (List.append_nil _).symm

theorem logged_palletRun (env : Externals) (hashOf : Bytes → H256) (cfg : Config) (es : List PalletEvent) :
    Logged env hashOf cfg es (palletRun env hashOf cfg es) := by
  induction es using List.reverseRecOn with
  | nil => exact ⟨fun _ => by simp [palletRun, Storage.genesis, lastRoot], rfl⟩
  | append_singleton es e ih =>
    rw [palletRun_append_singleton]
    exact ih.step e

/-! ### Whole runs -/

private theorem mem_logAfter_iff {past es : List PalletEvent} {x : Event} :
    x ∈ logAfter env hashOf cfg past es ↔
      ∃ pre e post, es = pre ++ e :: post ∧ deposited env hashOf cfg (past ++ pre) e = some x := by
  induction es generalizing past with
  | nil => simp [logAfter]
  | cons e es ih =>
    rw [logAfter, List.mem_append, Option.mem_toList, ih]
    constructor
    · rintro (he | ⟨pre, e', post, rfl, he⟩)
      · exact ⟨[], e, es, rfl, by rwa [List.append_nil]⟩
      · refine ⟨e :: pre, e', post, rfl, ?_⟩
        rwa [List.append_assoc, List.singleton_append] at he
    · rintro ⟨pre, e', post, heq, he⟩
      cases pre with
      | nil =>
        obtain ⟨rfl, rfl⟩ := List.cons.inj heq
        rw [List.append_nil] at he
        exact Or.inl he
      | cons e'' pre =>
        obtain ⟨rfl, rfl⟩ := List.cons.inj heq
        refine Or.inr ⟨pre, e', post, rfl, ?_⟩
        rwa [List.append_assoc, List.singleton_append]

private theorem deposited_eq_accepted {past : List PalletEvent} {e : PalletEvent} {root : H256} {id : UInt64} :
    deposited env hashOf cfg past e = some (.xcmpMessagesAccepted root id) ↔
      ∃ who mmrProof leaves, e = .call (.signed who) (.submitTestProof mmrProof leaves id) ∧
        lastRoot past id = some root ∧ env.verifyLeavesProof root leaves mmrProof = true := by
  constructor
  · intro h
    unfold deposited at h
    split at h
    · cases h
    · rename_i who mmrProof leaves channelId
      obtain ⟨r, hr, hif⟩ := Option.bind_eq_some_iff.1 h
      obtain ⟨hverify, heq⟩ := Option.ite_none_right_eq_some.1 hif
      cases heq
      exact ⟨who, mmrProof, leaves, rfl, hr, hverify⟩
    · cases h
  · rintro ⟨who, mmrProof, leaves, rfl, hroot, hverify⟩
    simp [deposited, hroot, hverify]

/-- After every run the log is the one that its steps give.  It has an entry for an accepted test proof exactly if some
account submitted a proof that verifies against the root set by the last `update_root` before it; and from every run two
calls of any account make an entry for any root with a proof. -/
theorem palletRun_log (env : Externals) (hashOf : Bytes → H256) (cfg : Config) (es : List PalletEvent) :
    (palletRun env hashOf cfg es).events = logAfter env hashOf cfg [] es ∧
      (∀ channelId : UInt64, (palletRun env hashOf cfg es).xcmpChannelRoots[channelId]? = lastRoot es channelId) ∧
      (∀ root channelId, .xcmpMessagesAccepted root channelId ∈ (palletRun env hashOf cfg es).events ↔
        ∃ pre who mmrProof leaves post,
          es = pre ++ .call (.signed who) (.submitTestProof mmrProof leaves channelId) :: post ∧
            lastRoot pre channelId = some root ∧ env.verifyLeavesProof root leaves mmrProof = true) ∧
      ∀ root channelId mmrProof leaves who, env.verifyLeavesProof root leaves mmrProof = true →
        (palletRun env hashOf cfg (es ++ [.call (.signed who) (.updateRoot root channelId)] ++
          [.call (.signed who) (.submitTestProof mmrProof leaves channelId)])).events =
            (palletRun env hashOf cfg es).events ++ [.xcmpMessagesAccepted root channelId] := by
  have h := logged_palletRun env hashOf cfg es
  refine ⟨h.events, h.roots, ?_, ?_⟩
  · intro root channelId
    rw [h.events, mem_logAfter_iff]
    constructor
    · rintro ⟨pre, e, post, rfl, he⟩
      obtain ⟨who, mmrProof, leaves, rfl, hroot, hverify⟩ := deposited_eq_accepted.1 he
      exact ⟨pre, who, mmrProof, leaves, post, rfl, hroot, hverify⟩
    · rintro ⟨pre, who, mmrProof, leaves, post, rfl, hroot, hverify⟩
      exact ⟨pre, _, post, rfl, deposited_eq_accepted.2 ⟨who, mmrProof, leaves, rfl, hroot, hverify⟩⟩
  · intro root channelId mmrProof leaves who hverify
    have hset : lastRoot (es ++ [.call (.signed who) (.updateRoot root channelId)]) channelId = some root := by
      simp [lastRoot_append_singleton, rootSet]
    have hnothing : deposited env hashOf cfg es (.call (.signed who) (.updateRoot root channelId)) = none := rfl
    rw [(logged_palletRun env hashOf cfg _).events, h.events, logAfter_append_singleton, logAfter_append_singleton,
      List.nil_append, List.nil_append, hnothing, deposited_eq_accepted.2 ⟨who, mmrProof, leaves, rfl, hset, hverify⟩]
    simp

theorem palletRun_log_twoCalls :
    (palletRun (.documented xcmrRoot) keccak256 configParaA
      [.call (.signed []) (.updateRoot (Mmr.mmrRoot keccak [[1, 2], [1, 2, 3]]) 0),
        .call (.signed []) (.submitTestProof ⟨[1], 2, [keccak256 [1, 2]]⟩ [[1, 2, 3]] 0)]).events =
      [.xcmpMessagesAccepted (Mmr.mmrRoot keccak [[1, 2], [1, 2, 3]]) 0] :=
  (palletRun_log (.documented xcmrRoot) keccak256 configParaA []).2.2.2 _ 0 ⟨[1], 2, [keccak256 [1, 2]]⟩ [[1, 2, 3]] []
    (Mmr.verifyLeavesProof_second keccak [1, 2] [1, 2, 3])

end XcmpPrototype
