import XcmpPrototype.Delivery

/-!
# Roots without a channel proof

The para collector first puts a message root into `MSG_ROOT_MAP` and only later its channel proof into
`MSG_ROOT_CHANNEL_MERKLE_MAP`.  In between it asks the node for that proof, compares its leaf with the pending roots and
takes a second lock, and it gives up when any of these fails; the root stays.  So a root is recorded in both maps
after every turn of the collector in those runs in which nothing fails for a root that has no channel proof yet
(`msgRoots_have_channel_proofs`).
-/

open Scale

namespace XcmpPrototype.Relayer

variable {env : Externals}

/-! ### What can go wrong in a turn -/

/-- The turn has put the root into `MSG_ROOT_MAP`. -/
def InsertedMsgRoot (h : Hist Answer) (r : H256) : Prop := ∃ v, ⟨.tryLock (.insertMsgRoot r v), some ()⟩ ∈ h

/-- An answer with which the collector gives up the channel proof. -/
def isSetback : Sigma Answer → Bool
  | ⟨.request (.getXcmpChannelsProof ..), a⟩ => (Option.join a).isNone
  | ⟨.tryLock (.containsMsgRoot _), a⟩ => !(Option.getD a false)
  | ⟨.tryLock (.insertMsgRootChannel ..), a⟩ => Option.isNone a
  | _ => false

/-- The collector has to give up only when each root that the turn has inserted has a channel proof already. -/
def SetbackHarmless (s : State) : Event → Prop
  | .answer .para q a => isSetback ⟨q, a⟩ = true → ∀ b h p, s.tasks .para = .running b h p →
      ∀ r, InsertedMsgRoot h r → r ∈ s.shared.maps.msgRootChannelMerkleMap
  | _ => True

/-- The root is inserted before anything can go wrong. -/
def InsertsFirst (h : Hist Answer) : Query → Prop
  | .tryLock (.insertMsgRoot ..) => ∀ x ∈ h, isSetback x = false
  | _ => True

/-- A turn that has inserted a root either gave up or has stored a channel proof for it. -/
def Completes (h : Hist Answer) : Prop :=
  ∀ r, InsertedMsgRoot h r →
    (∃ x ∈ h, isSetback x = true) ∨ ∃ p, ⟨.tryLock (.insertMsgRootChannel r p), some ()⟩ ∈ h

private theorem completes_of_setback {h : Hist Answer} {x : Sigma Answer} (hx : x ∈ h) (hset : isSetback x = true) :
    Completes h := fun _ _ => Or.inl ⟨x, hx, hset⟩

private theorem collectParaData_completes (b : Block) :
    Prog.wp (fun _ _ => True) InsertsFirst [] (collectParaData b) (fun h _ => Completes h) := by
  simp only [collectParaData, request, tryLock, orError, generateMmrProof, generateMmrRoot, Prog.wp_bind,
    Prog.wp_query, Prog.onOk_ok, Prog.wp_ofOption, Prog.onOk_error, InsertsFirst, true_and, forall_const]
  intro optRoot
  refine ⟨?_, fun _ => by simp [Completes, InsertedMsgRoot]⟩
  intro msgRoot _ optMsgProof
  refine ⟨?_, fun _ => by simp [Completes, InsertedMsgRoot]⟩
  intro msgProof _
  refine ⟨by simp [isSetback], ?_⟩
  intro inserted optProof
  refine ⟨?_, fun hnone => completes_of_setback List.mem_cons_self (by simp [isSetback, hnone])⟩
  intro proof _ _ rootsMatch
  by_cases hmatch : Option.getD rootsMatch false = true
  · simp only [hmatch, ↓reduceIte, Prog.wp_bind, Prog.wp_query, Prog.onOk_ok, Prog.wp_pure, InsertsFirst, true_and,
      forall_const]
    intro stored
    cases stored with
    | none => exact completes_of_setback List.mem_cons_self rfl
    | some u =>
      rintro r ⟨v, hr⟩
      have hroot : r = msgRoot := by
        simp only [List.mem_cons, Sigma.mk.injEq, Query.tryLock.injEq, reduceCtorEq, Access.insertMsgRoot.injEq,
          false_and, false_or, List.not_mem_nil, or_false] at hr
        exact hr.1.1
      rw [hroot]
      exact Or.inr ⟨proof, List.mem_cons_self⟩
  · rw [if_neg hmatch]
    refine completes_of_setback List.mem_cons_self ?_
    simpa [isSetback] using hmatch

/-! ### The map of channel proofs only grows -/

private theorem mem_channelMap_of_handled {s s' : Shared} {q : Query} {a : Answer q} (hh : Handled s q a s') {r : H256}
    (hr : r ∈ s.maps.msgRootChannelMerkleMap) : r ∈ s'.maps.msgRootChannelMerkleMap := by
  cases hh with
  | request q a => exact hr
  | busy x => exact hr
  | locked x =>
    cases x with
    | insertMsgRootChannel root proof => exact Std.TreeMap.mem_insert.2 (Or.inr hr)
    | _ => exact hr

/-- What a turn has inserted has a channel proof once the collector has given up or has stored one. -/
structure Settled (h : Hist Answer) (m : Maps) : Prop where
  setback : ∀ r, InsertedMsgRoot h r → (∃ x ∈ h, isSetback x = true) → r ∈ m.msgRootChannelMerkleMap
  stored : ∀ r p, ⟨.tryLock (.insertMsgRootChannel r p), some ()⟩ ∈ h → r ∈ m.msgRootChannelMerkleMap

private theorem Settled.mono {h : Hist Answer} {m m' : Maps} (hs : Settled h m)
    (hm : ∀ r, r ∈ m.msgRootChannelMerkleMap → r ∈ m'.msgRootChannelMerkleMap) : Settled h m' :=
  ⟨fun r hr hx => hm r (hs.setback r hr hx), fun r p hp => hm r (hs.stored r p hp)⟩

private theorem insertedMsgRoot_cons {h : Hist Answer} {x : Sigma Answer} {r : H256}
    (hr : InsertedMsgRoot (x :: h) r) :
    (∃ v, x = ⟨.tryLock (.insertMsgRoot r v), some ()⟩) ∨ InsertedMsgRoot h r := by
  obtain ⟨v, hv⟩ := hr
  rcases List.mem_cons.1 hv with heq | hv
  · exact Or.inl ⟨v, heq.symm⟩
  · exact Or.inr ⟨v, hv⟩

private theorem Settled.cons {s s' : Shared} {h : Hist Answer} (hs : Settled h s.maps) {q : Query} {a : Answer q}
    (hq : InsertsFirst h q)
    (hset : isSetback ⟨q, a⟩ = true → ∀ r, InsertedMsgRoot h r → r ∈ s.maps.msgRootChannelMerkleMap)
    (hh : Handled s q a s') : Settled (⟨q, a⟩ :: h) s'.maps := by
  have hgrows := fun r => mem_channelMap_of_handled hh (r := r)
  refine ⟨?_, ?_⟩
  · rintro r hr ⟨x, hx, hxset⟩
    rcases insertedMsgRoot_cons hr with ⟨v, heq⟩ | hr
    · -- nothing has gone wrong before the insertion
      cases heq
      rcases List.mem_cons.1 hx with rfl | hx
      · cases hxset
      · rw [hq x hx] at hxset
        cases hxset
    · rcases List.mem_cons.1 hx with rfl | hx
      · exact hgrows r (hset hxset r hr)
      · exact hgrows r (hs.setback r hr ⟨x, hx, hxset⟩)
  · intro r p hp
    rcases List.mem_cons.1 hp with heq | hp
    · cases heq
      cases hh with
      | locked x => exact Std.TreeMap.mem_insert_self
    · exact hgrows r (hs.stored r p hp)

def recordSpec : Machine.Spec TaskId Shared Block Answer Failure where
  inv _ := True
  loc
    | .para, _, s, h => Settled h s.maps
    | _, _, _, _ => True
  known _ _ _ _ := True
  asked i _ h q := AskedBy i q ∧ (i = .para → InsertsFirst h q)
  post
    | .para, _, h, _ => Completes h
    | _, _, _, _ => True

theorem recordSpec_sound (env : Externals) : recordSpec.Sound (machine env) SetbackHarmless where
  body i b := by
    refine Prog.wp_mono ?_ (body_askedBy_and env (j := .para) (collectParaData_completes b) i)
    intro h r hpost
    cases i with
    | para => exact hpost rfl
    | _ => trivial
  start i b shared _ := by
    cases i with
    | para =>
      refine ⟨?_, ?_⟩
      · rintro r ⟨v, hv⟩
        cases hv
      · intro r p hp
        cases hp
    | _ => trivial
  answer s i b h q k a shared hi _ hloc hasked hc hh := by
    refine ⟨trivial, ?_, trivial⟩
    cases i with
    | para =>
      exact Settled.cons hloc (hasked.2 rfl) (fun hset r hr => hc hset b h _ hi r hr) (handled_of_handle hh)
    | _ => trivial
  other i j b c h h' q a s s' hij hloc hasked hh := by
    cases i with
    | para => exact Settled.mono hloc fun r hr => mem_channelMap_of_handled (handled_of_handle hh) hr
    | _ => trivial
  world s w _ := by
    refine ⟨trivial, fun i b h hloc => ?_⟩
    cases i with
    | para => exact hloc
    | _ => trivial

/-! ### Runs -/

/-- The answers in the present turn of a task. -/
def turnOf : Machine.Task Block Answer Failure → Hist Answer
  | .running _ h _ => h
  | _ => []

/-- Every pending root has a channel proof, but for those that the present turn of the collector has inserted; and at
the end of every turn there were no others. -/
structure RecordedInBoth (s : State) : Prop where
  present : ∀ r ∈ s.shared.maps.msgRootMap,
    r ∈ s.shared.maps.msgRootChannelMerkleMap ∨ InsertedMsgRoot (turnOf (s.tasks .para)) r
  ended : ∀ x ∈ s.ended, x.task = .para →
    ∀ r ∈ x.shared.maps.msgRootMap, r ∈ x.shared.maps.msgRootChannelMerkleMap

/-- A pending root was pending before, or the collector has just inserted it. -/
private theorem mem_msgRootMap_of_handled {s s' : Shared} {q : Query} {a : Answer q} (hh : Handled s q a s') {r : H256}
    (hr : r ∈ s'.maps.msgRootMap) :
    r ∈ s.maps.msgRootMap ∨ ∃ v, (⟨q, a⟩ : Sigma Answer) = ⟨.tryLock (.insertMsgRoot r v), some ()⟩ := by
  cases hh with
  | request q a => exact Or.inl hr
  | busy x => exact Or.inl hr
  | locked x =>
    cases x with
    | insertMsgRoot root v =>
      rcases Std.TreeMap.mem_insert.1 hr with heq | hr
      · obtain rfl := Std.LawfulEqCmp.eq_of_compare heq
        exact Or.inr ⟨v, rfl⟩
      · exact Or.inl hr
    | removeMsgRoot root => exact Or.inl (Std.TreeMap.mem_erase.1 hr).2
    | _ => exact Or.inl hr

private theorem InsertedMsgRoot.cons {h : Hist Answer} {r : H256} (hr : InsertedMsgRoot h r) (x : Sigma Answer) :
    InsertedMsgRoot (x :: h) r := by
  obtain ⟨v, hv⟩ := hr
  exact ⟨v, List.mem_cons_of_mem _ hv⟩

private theorem RecordedInBoth.answer {s : State} (hs : RecordedInBoth s) {i : TaskId} {b : Block} {h : Hist Answer}
    {q : Query} {k : Answer q → Code Unit} {a : Answer q} {shared : Shared} (hi : s.tasks i = .running b h (.ask q k))
    (hq : AskedBy i q) (hh : Handled s.shared q a shared) :
    RecordedInBoth
      { s with shared := shared, tasks := Function.update s.tasks i (.running b (⟨q, a⟩ :: h) (k a)) } := by
  refine ⟨?_, hs.ended⟩
  intro r hr
  show _ ∨ InsertedMsgRoot (turnOf (Function.update s.tasks i _ .para)) r
  by_cases hpara : i = .para
  · subst hpara
    rw [Function.update_self]
    rcases mem_msgRootMap_of_handled hh hr with hr | ⟨v, heq⟩
    · rcases hs.present r hr with hr | hr
      · exact Or.inl (mem_channelMap_of_handled hh hr)
      · rw [hi] at hr
        exact Or.inr (hr.cons _)
    · exact Or.inr ⟨v, by rw [heq]; exact List.mem_cons_self⟩
  · rw [Function.update_of_ne (Ne.symm hpara)]
    rcases mem_msgRootMap_of_handled hh hr with hr | ⟨v, heq⟩
    · exact (hs.present r hr).imp_left (mem_channelMap_of_handled hh)
    · cases heq
      exact absurd hq.symm hpara

/-- At the end of a turn its own roots have channel proofs too. -/
private theorem RecordedInBoth.finish {s : State} (hs : RecordedInBoth s) (hholds : recordSpec.Holds s) {i : TaskId}
    {b : Block} {h : Hist Answer} {p : Code Unit} {r : Except Failure Unit} (t : Machine.Task Block Answer Failure)
    (hi : s.tasks i = .running b h p) (hp : p = .ret () ∧ r = .ok () ∨ ∃ e, p = .throw e ∧ r = .error e) :
    RecordedInBoth (Machine.close s i b h r t) := by
  by_cases hpara : i = .para
  · subst hpara
    obtain ⟨hwp, hsettled⟩ := hholds.running .para b h p hi
    have hcompletes : Completes h := by
      rcases hp with ⟨rfl, -⟩ | ⟨e, rfl, -⟩
      · exact hwp
      · exact hwp
    have hall : ∀ r ∈ s.shared.maps.msgRootMap, r ∈ s.shared.maps.msgRootChannelMerkleMap := by
      intro r hr
      rcases hs.present r hr with hr | hr
      · exact hr
      · rw [hi] at hr
        rcases hcompletes r hr with hset | ⟨proof, hstored⟩
        · exact hsettled.setback r hr hset
        · exact hsettled.stored r proof hstored
    refine ⟨fun r hr => Or.inl (hall r hr), ?_⟩
    intro x hx hxpara
    rcases List.mem_cons.1 hx with rfl | hx
    · exact hall
    · exact hs.ended x hx hxpara
  · refine ⟨?_, ?_⟩
    · intro r hr
      show _ ∨ InsertedMsgRoot (turnOf (Function.update s.tasks i t .para)) r
      rw [Function.update_of_ne (Ne.symm hpara)]
      exact hs.present r hr
    · intro x hx hxpara
      rcases List.mem_cons.1 hx with rfl | hx
      · exact absurd hxpara hpara
      · exact hs.ended x hx hxpara

private theorem RecordedInBoth.moves {s s' : State} {e : Event} (hs : RecordedInBoth s) (hholds : recordSpec.Holds s)
    (hm : (machine env).Moves s e s') : RecordedInBoth s' := by
  cases hm with
  | start i b hi =>
    refine ⟨?_, hs.ended⟩
    intro r hr
    show _ ∨ InsertedMsgRoot (turnOf (Function.update s.tasks i _ .para)) r
    by_cases hpara : i = .para
    · subst hpara
      have hpresent := hs.present r hr
      rw [hi] at hpresent
      rwa [Function.update_self]
    · rw [Function.update_of_ne (Ne.symm hpara)]
      exact hs.present r hr
  | answer i b h q k a shared hi hh =>
    exact hs.answer hi (hholds.running i b h _ hi).1.1.1 (handled_of_handle hh)
  | finish i b h p r t hi hp ht => exact hs.finish hholds t hi hp
  | world best => exact ⟨hs.present, hs.ended⟩

private theorem recordedInBoth_of_reaches {best : H256} {s : State}
    (h : Reaches (machine env).step SetbackHarmless (boot best) s) : RecordedInBoth s := by
  induction h with
  | refl =>
    refine ⟨?_, ?_⟩
    · intro r hr
      exact absurd hr Std.TreeMap.not_mem_emptyc
    · intro x hx
      cases hx
  | tail hr _ hs ih =>
    exact ih.moves ((recordSpec_sound env).holds ⟨.empty, best⟩ trivial hr) (Machine.moves_of_step hs)

/-- In every run in which the collector has to give up only with roots that have a channel proof already, after every
turn of the collector, however it ended, each root in `MSG_ROOT_MAP` is also in `MSG_ROOT_CHANNEL_MERKLE_MAP`. -/
theorem msgRoots_have_channel_proofs (env : Externals) (best : H256) (s : State)
    (h : Reaches (machine env).step SetbackHarmless (boot best) s)
    (x : Machine.Ended TaskId Shared Block Answer Failure) (hx : x ∈ s.ended) (hpara : x.task = .para) :
    ∀ r ∈ x.shared.maps.msgRootMap, r ∈ x.shared.maps.msgRootChannelMerkleMap :=
  (recordedInBoth_of_reaches h).ended x hx hpara

/-! ### A turn without a setback, and one with -/

/-- The leaf that is compared was inserted in the same turn. -/
private theorem collectParaData_paraNode (block : Block) (msgRoot : H256) :
    Prog.wp (fun q a => ∃ s, a = (freeReply (paraNode block msgRoot) s q).1)
      (fun h q => AskedBy .para q ∧ ∀ leaf, q = .tryLock (.containsMsgRoot leaf) → InsertedMsgRoot h leaf) []
      (collectParaData block) (fun _ _ => True) := by
  refine wp_askedBy_and (.documented xcmrRoot) (i := .para) ?_
  simp only [machine, collectParaData, request, tryLock, orError, generateMmrProof, generateMmrRoot, Prog.wp_bind,
    Prog.wp_query, Prog.onOk_ok, Prog.wp_ofOption, Prog.onOk_error, freeReply, paraNode, Query.tryLock.injEq,
    reduceCtorEq, true_and, implies_true, and_true, IsEmpty.forall_iff]
  rintro _ ⟨_, rfl⟩ root hroot _ ⟨_, rfl⟩ msgProof _ _ ⟨_, rfl⟩ _ ⟨_, rfl⟩ channelMerkleProof hproof _ _
  refine ⟨?_, fun rootsMatch _ => ?_⟩
  · intro leaf hleaf
    cases hproof
    cases hroot
    obtain rfl := Access.containsMsgRoot.inj hleaf
    exact ⟨msgProof, by simp [Access.read]⟩
  · split
    · refine ⟨?_, fun _ _ => trivial⟩
      intro _ hq
      cases hq
    · trivial

/-- The run to `collected` has no setback. -/
private theorem reaches_collected : Reaches relayer.step SetbackHarmless (boot H256.zero) collected := by
  have hrelay : Reaches relayer.step SetbackHarmless (boot H256.zero)
      (relayer.perform (freeReply relayNode) (boot H256.zero) .relay relayBlock) :=
    reaches_perform_free relayNode relayBlock rfl trivial (fun _ _ => trivial) fun _ => trivial
  refine hrelay.trans (Machine.reaches_perform_of_wp
    (J := fun h s => ∀ r, InsertedMsgRoot h r → r ∈ s.maps.msgRootMap) ?_ ?_ (collectParaData_paraNode paraBlock _) ?_
    (Machine.perform_tasks_of_ne (by decide)) trivial fun _ => trivial)
  · intro s h q hJ hq
    refine ⟨handle_freeReply _ s q, ?_⟩
    intro r hr
    cases q with
    | request q =>
      rcases insertedMsgRoot_cons hr with ⟨v, heq⟩ | hr
      · cases heq
      · exact hJ r hr
    | tryLock x =>
      cases x with
      | insertMsgRoot root v =>
        rcases insertedMsgRoot_cons hr with ⟨v', heq⟩ | hr
        · cases heq
          exact Std.TreeMap.mem_insert_self
        · exact Std.TreeMap.mem_insert.2 (Or.inr (hJ r hr))
      | removeMsgRoot root => cases hq.1
      | _ =>
        rcases insertedMsgRoot_cons hr with ⟨v, heq⟩ | hr
        · cases heq
        · exact hJ r hr
  · intro s h q k hJ hq hi hset
    cases q with
    | request r =>
      cases r with
      | getXcmpChannelsProof block channelId => cases hset
      | _ => cases hset
    | tryLock x =>
      cases x with
      | containsMsgRoot leaf =>
        have hmem : s.shared.maps.msgRootMap.contains leaf = true := hJ leaf (hq.2 leaf rfl)
        simp [isSetback, freeReply, Access.read, hmem] at hset
      | _ => cases hset
  · rintro r ⟨v, hv⟩
    cases hv

theorem msgRoots_have_channel_proofs_collected :
    ∃ x ∈ collected.ended, x.task = .para ∧ H256.repeatByte 0x21 ∈ x.shared.maps.msgRootMap ∧
      H256.repeatByte 0x21 ∈ x.shared.maps.msgRootChannelMerkleMap := by
  have hx : collected.ended.any (fun x => x.task = .para ∧ H256.repeatByte 0x21 ∈ x.shared.maps.msgRootMap) = true := by
    decide +kernel
  obtain ⟨x, hmem, hx⟩ := List.any_eq_true.1 hx
  obtain ⟨hpara, hroot⟩ := of_decide_eq_true hx
  exact ⟨x, hmem, hpara, hroot,
    msgRoots_have_channel_proofs (.documented xcmrRoot) H256.zero collected reaches_collected x hmem hpara _ hroot⟩

/-- The node has no channel proof for a block, and its root stays without one. -/
theorem msgRoot_half_recorded :
    Reachable relayer.step (boot H256.zero) blocked ∧
      ∃ x ∈ blocked.ended, x.task = .para ∧ x.result.isOk = false ∧
        H256.repeatByte 0x01 ∈ x.shared.maps.msgRootMap ∧
        H256.repeatByte 0x01 ∉ x.shared.maps.msgRootChannelMerkleMap := by
  have hx : blocked.ended.any (fun x => x.task = .para ∧ x.result.isOk = false ∧
      H256.repeatByte 0x01 ∈ x.shared.maps.msgRootMap ∧
      H256.repeatByte 0x01 ∉ x.shared.maps.msgRootChannelMerkleMap) = true := by
    decide +kernel
  obtain ⟨x, hmem, hx⟩ := List.any_eq_true.1 hx
  exact ⟨reachable_blocked, x, hmem, of_decide_eq_true hx⟩

end XcmpPrototype.Relayer
