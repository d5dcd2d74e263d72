import XcmpPrototype.Submissions

/-!
# Where the parts of a submitted proof come from

The relayer adds nothing of its own to a proof.  Whatever the tasks do in between, every part of a submitted proof is an
answer that a node has given: message root and message proof for the same block of the parachain, a channel proof for a
block with that same message root, the proof of a head which carries the channel root, and a BEEFY root and proof whose
leaf carries the root of heads (`submitting_provenance`).  The nodes may be as dishonest as they like.

The maps only pass answers on: each entry is made of answers in one turn of the one task that writes the map
(`FromNodes`), and each lookup returns such entries.
-/

open Scale

namespace XcmpPrototype.Relayer

variable {env : Externals}

/-! ### Answers behind an entry -/

section Answered

variable (h : Hist Answer)

/-- The BEEFY root and the proof of `LEAVES_BEEFY_MMR_MAP`: the proof is for the number in the key, and opens the header
root in the key. -/
def LeafAnswered (k : H256 × UInt32) (v : H256 × LeavesProof) : Prop :=
  ⟨.request (.mmrRoot none (some receiverChannelId)), some (some v.1)⟩ ∈ h ∧
    (∃ hash, ⟨.request (.generateProof k.2.toUInt64 (some hash) (some receiverChannelId)), some (some v.2)⟩ ∈ h) ∧
    OpensHeaderRoot v.2 k.1

/-- The proof of a head of parachain 1000, which carries the key. -/
def HeadAnswered (env : Externals) (k : H256) (p : ParaMerkleProof) : Prop :=
  (∃ hash, ⟨.request (.getParaHeadsProof hash 1000), some (some p)⟩ ∈ h) ∧ k ≠ H256.zero ∧
    extractXcmpChannelRoot env p.leaf = some k

/-- The message root and the message proof of the block `b`. -/
def MsgAnswered (b : Block) (k : H256) (v : LeavesProof) : Prop :=
  ⟨.request (.mmrRoot (some b.hash) (some receiverChannelId)), some (some k)⟩ ∈ h ∧
    ⟨.request (.generateProof b.number.toUInt64 (some b.hash) (some receiverChannelId)), some (some v)⟩ ∈ h

/-- The message root and the channel proof of some block. -/
def ChannelAnswered (k : H256) (p : ChannelMerkleProof) : Prop :=
  ∃ hash, ⟨.request (.mmrRoot (some hash) (some receiverChannelId)), some (some k)⟩ ∈ h ∧
    ⟨.request (.getXcmpChannelsProof hash receiverChannelId), some (some p)⟩ ∈ h

variable {h} {h' : Hist Answer} (hsub : h ⊆ h')

include hsub

theorem LeafAnswered.mono {k : H256 × UInt32} {v : H256 × LeavesProof} (hk : LeafAnswered h k v) :
    LeafAnswered h' k v := by
  obtain ⟨hroot, ⟨hash, hproof⟩, hopens⟩ := hk
  exact ⟨hsub hroot, ⟨hash, hsub hproof⟩, hopens⟩

theorem HeadAnswered.mono {k : H256} {p : ParaMerkleProof} (hk : HeadAnswered h env k p) : HeadAnswered h' env k p := by
  obtain ⟨⟨hash, hproof⟩, hrest⟩ := hk
  exact ⟨⟨hash, hsub hproof⟩, hrest⟩

theorem MsgAnswered.mono {b : Block} {k : H256} {v : LeavesProof} (hk : MsgAnswered h b k v) : MsgAnswered h' b k v :=
  ⟨hsub hk.1, hsub hk.2⟩

theorem ChannelAnswered.mono {k : H256} {p : ChannelMerkleProof} (hk : ChannelAnswered h k p) :
    ChannelAnswered h' k p := by
  obtain ⟨hash, hroot, hproof⟩ := hk
  exact ⟨hash, hsub hroot, hsub hproof⟩

end Answered

/-! ### Questions of a body -/

/-- The lookups behind a submission, each under a key that the one before has returned. -/
structure LookedUp (h : Hist Answer) (p : XcmpProof) (root k : H256) (v : LeavesProof) (es : List (H256 × LeavesProof))
    (v1 : LeavesProof) : Prop where
  stage4 : ⟨.tryLock .firstMsgRoot, some (some (k, v))⟩ ∈ h
  stage3 : ⟨.tryLock (.getMsgRootChannel k), some (some p.stage3)⟩ ∈ h
  stage2 : ⟨.tryLock (.getParaHeader p.stage3.root), some (some p.stage2)⟩ ∈ h
  stage1 : ⟨.tryLock (.beefyEntries p.stage2.root), some es⟩ ∈ h
  entry : (root, v1) ∈ es
  messages : ReadFrom v p
  leaves : decodeLeaves v1.leaves = some p.stage1.2
  proof : decodeProof v1.proof = some p.stage1.1

/-- Insertions are made of answers, and submissions of lookups. -/
def FromAsked (env : Externals) (b : Block) (h : Hist Answer) : Query → Prop
  | .tryLock (.insertLeaf headerRoot n root proof) => LeafAnswered h (headerRoot, n) (root, proof)
  | .tryLock (.insertParaHeader root p) => HeadAnswered h env root p
  | .tryLock (.insertMsgRoot root proof) => MsgAnswered h b root proof
  | .tryLock (.insertMsgRootChannel root p) => ChannelAnswered h root p
  | .request (.signAndSubmit p root) => ∃ k v es v1, LookedUp h p root k v es v1
  | _ => True

private theorem collectRelayData_from (b : Block) :
    Prog.wp (fun _ _ => True) (FromAsked env b) [] (collectRelayData env b) fun _ _ => True := by
  simp only [collectRelayData, request, tryLock, orError, first, generateMmrProof, Prog.wp_bind, Prog.wp_query,
    Prog.wp_pure, Prog.onOk_ok, Prog.wp_ofOption, Prog.wp_check, Prog.onOk_error, FromAsked, implies_true,
    and_true, true_and, forall_const]
  intro optRoot root hroot optHeader _ _ optProof proof hproof leaves hleaves leaf hleaf mmrLeaf hmmrLeaf
  obtain rfl := Option.join_eq_some_iff.1 hroot
  obtain rfl := Option.join_eq_some_iff.1 hproof
  refine ⟨⟨by simp, ⟨b.hash, by simp⟩, ?_⟩, ?_⟩
  · obtain ⟨bs, rfl⟩ := List.head?_eq_some_iff.1 hleaf
    exact ⟨leaf, bs, mmrLeaf.1, mmrLeaf.2, hleaves, hmmrLeaf, rfl⟩
  · intro _ optHead p hopt hne
    obtain rfl := Option.join_eq_some_iff.1 hopt
    refine ⟨⟨b.hash, by simp⟩, by simpa using hne, ?_⟩
    -- the default of a failed extraction was refused
    cases hx : extractXcmpChannelRoot env p.leaf with
    | some r => rfl
    | none => simp [hx] at hne

private theorem collectParaData_from (b : Block) :
    Prog.wp (fun _ _ => True) (FromAsked env b) [] (collectParaData b) fun _ _ => True := by
  simp only [collectParaData, request, tryLock, orError, generateMmrProof, generateMmrRoot, Prog.wp_bind,
    Prog.wp_query, Prog.onOk_ok, Prog.wp_ofOption, Prog.onOk_error, FromAsked, implies_true, and_true, true_and,
    forall_const]
  intro optRoot msgRoot hroot optProof msgProof hproof
  obtain rfl := Option.join_eq_some_iff.1 hroot
  obtain rfl := Option.join_eq_some_iff.1 hproof
  refine ⟨⟨by simp, by simp⟩, ?_⟩
  intro _ optChannel p hopt _ rootsMatch
  obtain rfl := Option.join_eq_some_iff.1 hopt
  split
  · exact ⟨⟨b.hash, by simp, by simp⟩, fun _ _ => trivial⟩
  · trivial

private theorem generateXcmpProof_from (b : Block) :
    Prog.wp (fun _ _ => True) (FromAsked env b) [] generateXcmpProof fun _ _ => True := by
  simp only [generateXcmpProof, lookUpStages, removeAndSubmit, request, tryLock, orError, Prog.wp_bind, Prog.wp_query,
    Prog.wp_pure, Prog.onOk_ok, Prog.wp_ofOption, Prog.wp_check, Prog.onOk_error, FromAsked, implies_true, and_true,
    true_and, forall_const]
  intro _ _ _ entry stage4 hentry _ _ stage4Leaves hleaves4 stage4Proof hproof4 optStage3 stage3 hopt3 optStage2 stage2
    hopt2 entries stage1 hlast stage1Leaves hleaves1 stage1Proof hproof1 _ _ _ _ _ _ _
  obtain rfl := Option.join_eq_some_iff.1 hentry
  obtain rfl := Option.join_eq_some_iff.1 hopt3
  obtain rfl := Option.join_eq_some_iff.1 hopt2
  refine wp_submitXcmpProof ?_ fun _ => ⟨trivial, trivial⟩
  cases entries with
  | none => cases hlast
  | some es =>
    exact ⟨stage4.1, stage4.2, es, stage1.2,
      { stage4 := by simp
        stage3 := by simp
        stage2 := by simp
        stage1 := by simp
        entry := List.mem_of_getLast? hlast
        messages := ⟨hleaves4, hproof4⟩
        leaves := hleaves1
        proof := hproof1 }⟩

def fromSpec (env : Externals) : Machine.Spec TaskId Shared Block Answer Failure where
  inv _ := True
  loc _ _ _ _ := True
  known _ _ _ _ := True
  asked i b h q := AskedBy i q ∧ FromAsked env b h q
  post _ _ _ _ := True

theorem fromSpec_sound (env : Externals) : (fromSpec env).Sound (machine env) (fun _ _ => True) where
  body i b := by
    apply wp_askedBy_and
    cases i with
    | relay => exact collectRelayData_from b
    | para => exact collectParaData_from b
    | generator => exact generateXcmpProof_from b
  start _ _ _ _ := trivial
  answer _ _ _ _ _ _ _ _ _ _ _ _ _ _ := ⟨trivial, trivial, trivial⟩
  other _ _ _ _ _ _ _ _ _ _ _ _ _ _ := trivial
  world _ _ _ := ⟨trivial, fun _ _ _ _ => trivial⟩

/-! ### Entries and lookups -/

section Turns

variable {turns turns' : TaskId → List (Hist Answer)}

/-- The answers of each turn are among those of some later one. -/
def Continues (turns turns' : TaskId → List (Hist Answer)) : Prop := ∀ i, ∀ h ∈ turns i, ∃ h' ∈ turns' i, h ⊆ h'

private theorem Continues.exists_mem (hc : Continues turns turns') {i : TaskId} {P : Hist Answer → Prop}
    (hP : ∀ h h', h ⊆ h' → P h → P h') (h : ∃ h ∈ turns i, P h) : ∃ h ∈ turns' i, P h := by
  obtain ⟨h, hh, hp⟩ := h
  obtain ⟨h', hh', hsub⟩ := hc i h hh
  exact ⟨h', hh', hP h h' hsub hp⟩

private theorem continues_start (turns : TaskId → List (Hist Answer)) (i : TaskId) :
    Continues turns (Function.update turns i ([] :: turns i)) := by
  intro j h hh
  by_cases hj : j = i
  · subst hj
    exact ⟨h, by simp [hh], List.Subset.refl h⟩
  · exact ⟨h, by simp [hj, hh], List.Subset.refl h⟩

private theorem continues_answer {i : TaskId} {h : Hist Answer} {hs : List (Hist Answer)} (hcons : turns i = h :: hs)
    (x : Sigma Answer) : Continues turns (Function.update turns i ((x :: h) :: hs)) := by
  intro j h' hh'
  by_cases hj : j = i
  · subst hj
    rw [hcons] at hh'
    rcases List.mem_cons.1 hh' with rfl | hh'
    · exact ⟨x :: h', by simp, List.subset_cons_self x h'⟩
    · exact ⟨h', by simp [hh'], List.Subset.refl h'⟩
  · exact ⟨h', by simp [hj, hh'], List.Subset.refl h'⟩

/-- A lookup has returned entries that are made of answers in one turn. -/
def ReadFromNodes (env : Externals) (turns : TaskId → List (Hist Answer)) : (q : Query) → Answer q → Prop
  | .tryLock .firstMsgRoot, a => ∀ k v, a = some (some (k, v)) → ∃ h ∈ turns .para, ∃ b, MsgAnswered h b k v
  | .tryLock (.getMsgRootChannel k), a => ∀ p, a = some (some p) → ∃ h ∈ turns .para, ChannelAnswered h k p
  | .tryLock (.getParaHeader k), a => ∀ p, a = some (some p) → ∃ h ∈ turns .relay, HeadAnswered h env k p
  | .tryLock (.beefyEntries k), a => ∀ es, a = some es → ∀ e ∈ es, ∃ h ∈ turns .relay, ∃ n, LeafAnswered h (k, n) e
  | _, _ => True

/-- All entries, and all lookups so far, are made of answers in one turn. -/
structure FromNodes (env : Externals) (m : Maps) (turns : TaskId → List (Hist Answer)) : Prop where
  leaves : ∀ (k : H256 × UInt32) (v : H256 × LeavesProof), m.leavesBeefyMmrMap[k]? = some v →
    ∃ h ∈ turns .relay, LeafAnswered h k v
  headers : ∀ (k : H256) (p : ParaMerkleProof), m.paraHeadersMap[k]? = some p →
    ∃ h ∈ turns .relay, HeadAnswered h env k p
  messages : ∀ (k : H256) (v : LeavesProof), m.msgRootMap[k]? = some v → ∃ h ∈ turns .para, ∃ b, MsgAnswered h b k v
  channels : ∀ (k : H256) (p : ChannelMerkleProof), m.msgRootChannelMerkleMap[k]? = some p →
    ∃ h ∈ turns .para, ChannelAnswered h k p
  reads : ∀ h ∈ turns .generator, ∀ x ∈ h, ReadFromNodes env turns x.1 x.2

private theorem ReadFromNodes.mono (hc : Continues turns turns') {q : Query} {a : Answer q}
    (h : ReadFromNodes env turns q a) : ReadFromNodes env turns' q a := by
  unfold ReadFromNodes at h ⊢
  split at h
  · intro k v hv
    exact hc.exists_mem (fun _ _ hsub => .imp fun _ hb => hb.mono hsub) (h k v hv)
  · exact fun p hp => hc.exists_mem (fun _ _ hsub hk => hk.mono hsub) (h p hp)
  · exact fun p hp => hc.exists_mem (fun _ _ hsub hk => hk.mono hsub) (h p hp)
  · intro es hes e he
    exact hc.exists_mem (fun _ _ hsub => .imp fun _ hn => hn.mono hsub) (h es hes e he)
  · trivial

private theorem FromNodes.mono {m : Maps} (hc : Continues turns turns') (h : FromNodes env m turns)
    (hreads : ∀ h ∈ turns' .generator, ∀ x ∈ h, ReadFromNodes env turns' x.1 x.2) : FromNodes env m turns' where
  leaves k v hk := hc.exists_mem (fun _ _ hsub hl => hl.mono hsub) (h.leaves k v hk)
  headers k p hk := hc.exists_mem (fun _ _ hsub hl => hl.mono hsub) (h.headers k p hk)
  messages k v hk := hc.exists_mem (fun _ _ hsub => .imp fun _ hb => hb.mono hsub) (h.messages k v hk)
  channels k p hk := hc.exists_mem (fun _ _ hsub hl => hl.mono hsub) (h.channels k p hk)
  reads := hreads

variable {m : Maps}

/-- What an access returns is made of answers if the entries are. -/
private theorem FromNodes.read (h : FromNodes env m turns) (x : Access) :
    ReadFromNodes env turns (.tryLock x) (some (x.read m)) := by
  cases x with
  | firstMsgRoot =>
    intro k v hv
    exact h.messages k v (Std.TreeMap.mem_toList_iff_getElem?_eq_some.1 (List.mem_of_head? (Option.some.inj hv)))
  | getMsgRootChannel k => exact fun p hp => h.channels k p (Option.some.inj hp)
  | getParaHeader k => exact fun p hp => h.headers k p (Option.some.inj hp)
  | beefyEntries k =>
    intro es hes e he
    obtain rfl := Option.some.inj hes
    obtain ⟨y, hy, rfl⟩ := List.mem_map.1 he
    obtain ⟨hy, hroot⟩ := List.mem_filter.1 hy
    obtain ⟨hist, hmem, hleaf⟩ := h.leaves y.1 y.2 (Std.TreeMap.mem_toList_iff_getElem?_eq_some.1 hy)
    refine ⟨hist, hmem, y.1.2, ?_⟩
    rw [← of_decide_eq_true hroot]
    exact hleaf
  | _ => trivial

private theorem ReadFromNodes.busy (x : Access) : ReadFromNodes env turns (.tryLock x) none := by
  cases x with
  | firstMsgRoot => intro k v hv; cases hv
  | getMsgRootChannel k => intro p hp; cases hp
  | getParaHeader k => intro p hp; cases hp
  | beefyEntries k => intro es hes; cases hes
  | _ => trivial

/-- The one task that writes a map has the answers for a new entry in its turn. -/
private theorem FromNodes.write (h : FromNodes env m turns) {i : TaskId} {b : Block} {hist : Hist Answer}
    (hmem : hist ∈ turns i) {x : Access} (hi : AskedBy i (.tryLock x)) (hx : FromAsked env b hist (.tryLock x)) :
    FromNodes env (x.write m) turns := by
  cases x with
  | insertLeaf headerRoot n root proof =>
    obtain rfl : TaskId.relay = i := hi
    have hnew : ∃ h ∈ turns .relay, LeafAnswered h (headerRoot, n) (root, proof) := ⟨hist, hmem, hx⟩
    exact { h with leaves := forall_getElem?_insert h.leaves hnew }
  | insertParaHeader root p =>
    obtain rfl : TaskId.relay = i := hi
    have hnew : ∃ h ∈ turns .relay, HeadAnswered h env root p := ⟨hist, hmem, hx⟩
    exact { h with headers := forall_getElem?_insert h.headers hnew }
  | insertMsgRoot root proof =>
    obtain rfl : TaskId.para = i := hi
    have hnew : ∃ h ∈ turns .para, ∃ b, MsgAnswered h b root proof := ⟨hist, hmem, b, hx⟩
    exact { h with messages := forall_getElem?_insert h.messages hnew }
  | insertMsgRootChannel root p =>
    obtain rfl : TaskId.para = i := hi
    have hnew : ∃ h ∈ turns .para, ChannelAnswered h root p := ⟨hist, hmem, hx⟩
    exact { h with channels := forall_getElem?_insert h.channels hnew }
  | removeMsgRoot root =>
    refine { h with messages := fun k v hk => ?_ }
    simp only [Access.write, Std.TreeMap.getElem?_erase, Option.ite_none_left_eq_some] at hk
    exact h.messages k v hk.2
  | _ => exact { h with }

private theorem FromNodes.start (h : FromNodes env m turns) (i : TaskId) :
    FromNodes env m (Function.update turns i ([] :: turns i)) := by
  have hc := continues_start turns i
  refine h.mono hc fun h' hh' x hx => ?_
  by_cases hi : TaskId.generator = i
  · subst hi
    rw [Function.update_self] at hh'
    rcases List.mem_cons.1 hh' with rfl | hh'
    · cases hx
    · exact (h.reads h' hh' x hx).mono hc
  · rw [Function.update_of_ne hi] at hh'
    exact (h.reads h' hh' x hx).mono hc

/-- A further answer keeps what was so before, if it is made of answers itself. -/
private theorem FromNodes.cons (h : FromNodes env m turns) {i : TaskId} {hist : Hist Answer} {hs : List (Hist Answer)}
    (hcons : turns i = hist :: hs) {q : Query} {a : Answer q} (ha : ReadFromNodes env turns q a) :
    FromNodes env m (Function.update turns i ((⟨q, a⟩ :: hist) :: hs)) := by
  have hc := continues_answer hcons ⟨q, a⟩
  refine h.mono hc fun h' hh' x hx => ?_
  by_cases hi : TaskId.generator = i
  · subst hi
    rw [Function.update_self] at hh'
    rcases List.mem_cons.1 hh' with rfl | hh'
    · rcases List.mem_cons.1 hx with rfl | hx
      · exact ha.mono hc
      · exact (h.reads hist (by simp [hcons]) x hx).mono hc
    · exact (h.reads h' (by simp [hcons, hh']) x hx).mono hc
  · rw [Function.update_of_ne hi] at hh'
    exact (h.reads h' hh' x hx).mono hc

end Turns

theorem Reachable.fromNodes {best : H256} {s : State} (h : Reachable (machine env).step (boot best) s) :
    FromNodes env s.shared.maps s.hists := by
  refine (fromSpec_sound env).hists_invariant (J := fun s r => FromNodes env s.maps r) trivial ?_ ?_ ?_ ?_ h
  · exact ⟨by simp [Maps.empty], by simp [Maps.empty], by simp [Maps.empty], by simp [Maps.empty], by simp⟩
  · exact fun i _ _ hfrom => hfrom.start i
  · intro i b hist hs q a s s' turns hasked hcons hh hfrom
    cases handled_of_handle hh with
    | request r a => exact hfrom.cons hcons trivial
    | busy x => exact hfrom.cons hcons (ReadFromNodes.busy x)
    | locked x =>
      -- the access returns entries of the map before it, and writes into the map after it
      exact (hfrom.write (by simp [hcons]) hasked.1 hasked.2).cons hcons (hfrom.read x)
  · intro s best turns hfrom
    exact hfrom

/-! ### Submitted proofs -/

/-- The lookups of the call that is about to submit a proof. -/
theorem lookedUp_of_submitting {best : H256} {s : State} (h : Reachable (machine env).step (boot best) s)
    {p : XcmpProof} {root : H256} (hp : submitting s = some (p, root)) :
    ∃ hist ∈ s.hists .generator, ∃ k v es v1, LookedUp hist p root k v es v1 := by
  obtain ⟨b, hist, k, hgen⟩ := submitting_eq_some hp
  have hs := (fromSpec_sound env).holds ⟨.empty, best⟩ trivial h
  refine ⟨hist, ?_, (hs.running .generator b hist _ hgen).1.1.2⟩
  simp [Machine.State.hists, hgen, Machine.Task.hists]

/-- In every run, whatever the nodes answer, all parts of a proof that the relayer is about to submit are answers of the
nodes: messages and message root of one block, a channel proof of a block with that message root, the proof of a head
that carries the channel root, and a BEEFY root and a BEEFY proof that opens the root of heads.  The answers of each
item were given in one turn of a collector. -/
theorem submitting_provenance (env : Externals) (best : H256) (s : State)
    (h : Reachable (machine env).step (boot best) s) (p : XcmpProof) (root : H256)
    (hp : submitting s = some (p, root)) :
    ∃ b k v n v1, (∃ h ∈ s.hists .para, MsgAnswered h b k v) ∧ ReadFrom v p ∧
      (∃ h ∈ s.hists .para, ChannelAnswered h k p.stage3) ∧
      (∃ h ∈ s.hists .relay, HeadAnswered h env p.stage3.root p.stage2) ∧
      (∃ h ∈ s.hists .relay, LeafAnswered h (p.stage2.root, n) (root, v1)) ∧
      decodeLeaves v1.leaves = some p.stage1.2 ∧ decodeProof v1.proof = some p.stage1.1 := by
  have hfrom := Reachable.fromNodes h
  obtain ⟨hist, hmem, k, v, es, v1, hl⟩ := lookedUp_of_submitting h hp
  have hreads := hfrom.reads hist hmem
  obtain ⟨hpara, hpmem, b, hmsg⟩ := hreads _ hl.stage4 k v rfl
  obtain ⟨hrelay, hrmem, n, hleaf⟩ := hreads _ hl.stage1 es rfl _ hl.entry
  exact ⟨b, k, v, n, v1, ⟨hpara, hpmem, hmsg⟩, hl.messages, hreads _ hl.stage3 _ rfl, hreads _ hl.stage2 _ rfl,
    ⟨hrelay, hrmem, hleaf⟩, hl.leaves, hl.proof⟩

theorem submitting_provenance_assembled :
    ∃ p root, submitting assembled = some (p, root) ∧
      ∃ b k v n v1, (∃ h ∈ assembled.hists .para, MsgAnswered h b k v) ∧ ReadFrom v p ∧
        (∃ h ∈ assembled.hists .para, ChannelAnswered h k p.stage3) ∧
        (∃ h ∈ assembled.hists .relay, HeadAnswered h (.documented xcmrRoot) p.stage3.root p.stage2) ∧
        (∃ h ∈ assembled.hists .relay, LeafAnswered h (p.stage2.root, n) (root, v1)) ∧
        decodeLeaves v1.leaves = some p.stage1.2 ∧ decodeProof v1.proof = some p.stage1.1 :=
  ⟨_, _, submitting_assembled, submitting_provenance (.documented xcmrRoot) H256.zero assembled reachable_assembled _ _
    submitting_assembled⟩

end XcmpPrototype.Relayer
