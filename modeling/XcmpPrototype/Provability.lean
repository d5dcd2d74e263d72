import XcmpPrototype.Delivery

/-!
# Whether a provable message stays provable

For a pending root the generator follows a chain through the maps: from the root to its channel proof, from the root of
that proof to the proof of a head, from the root of that one to a BEEFY proof.  A collector may overwrite a link of this
chain at any later block.  The new link is not checked to lead on, so a message that could be proven may become
unprovable (`provable_lost`); it stays provable as long as every new link leads on when it is stored
(`provable_kept`).
-/

open Scale

namespace XcmpPrototype.Relayer

variable {env : Externals}

/-! ### The chain of lookups -/

/-- There is a BEEFY proof for a root of heads. -/
def HasLeaf (m : Maps) (headerRoot : H256) : Prop := Access.read m (.beefyEntries headerRoot) ≠ []

/-- There is the proof of a head for a root of channels, and a BEEFY proof for that one. -/
def HasHead (m : Maps) (channelRoot : H256) : Prop :=
  ∃ stage2, m.paraHeadersMap[channelRoot]? = some stage2 ∧ HasLeaf m stage2.root

/-- All lookups for the root `r` succeed. -/
def Provable (m : Maps) (r : H256) : Prop :=
  r ∈ m.msgRootMap ∧ ∃ stage3, m.msgRootChannelMerkleMap[r]? = some stage3 ∧ HasHead m stage3.root

private instance decidableExistsSome {α : Type} (P : α → Prop) [DecidablePred P] :
    (o : Option α) → Decidable (∃ a, o = some a ∧ P a)
  | some a => decidable_of_iff (P a) (by simp)
  | none => isFalse (by simp)

instance (m : Maps) (headerRoot : H256) : Decidable (HasLeaf m headerRoot) := inferInstanceAs (Decidable (_ ≠ _))

instance (m : Maps) (channelRoot : H256) : Decidable (HasHead m channelRoot) := decidableExistsSome _ _

instance (m : Maps) (r : H256) : Decidable (Provable m r) :=
  @instDecidableAnd _ _ inferInstance (decidableExistsSome _ _)

/-- Steps of the collectors and of the outside world. -/
def IsCollecting : Event → Prop
  | .start i _ | .answer i _ _ | .finish i => i ≠ .generator
  | .world _ => True

/-- A new link in the chain of `r` leads on when it is stored: the proof of a head under its root of channels has a
BEEFY proof, and the channel proof under `r` has the proof of a head with a BEEFY proof. -/
def LeadsOn (r : H256) (s : State) : Event → Prop
  | .answer _ (.tryLock (.insertParaHeader root proof)) a => a = some () →
      (∃ stage3, s.shared.maps.msgRootChannelMerkleMap[r]? = some stage3 ∧ stage3.root = root) →
      HasLeaf s.shared.maps proof.root
  | .answer _ (.tryLock (.insertMsgRootChannel root proof)) a => a = some () → root = r →
      HasHead s.shared.maps proof.root
  | _ => True

theorem hasLeaf_iff {m : Maps} {headerRoot : H256} :
    HasLeaf m headerRoot ↔ ∃ n, (headerRoot, n) ∈ m.leavesBeefyMmrMap := by
  unfold HasLeaf
  constructor
  · intro h
    obtain ⟨v, hv⟩ := List.exists_mem_of_ne_nil _ h
    obtain ⟨x, hx, -⟩ := List.mem_map.1 hv
    obtain ⟨hmem, hroot⟩ := List.mem_filter.1 hx
    obtain rfl := of_decide_eq_true hroot
    refine ⟨x.1.2, ?_⟩
    rw [Std.TreeMap.mem_iff_isSome_getElem?, Std.TreeMap.mem_toList_iff_getElem?_eq_some.1 hmem]
    rfl
  · rintro ⟨n, hn⟩
    obtain ⟨v, hv⟩ := Option.isSome_iff_exists.1 (Std.TreeMap.mem_iff_isSome_getElem?.1 hn)
    have hmem := Std.TreeMap.mem_toList_iff_getElem?_eq_some.2 hv
    exact List.ne_nil_of_mem (List.mem_map.2 ⟨_, List.mem_filter.2 ⟨hmem, decide_eq_true rfl⟩, rfl⟩)

private theorem HasLeaf.write {m : Maps} {headerRoot : H256} (h : HasLeaf m headerRoot) (x : Access) :
    HasLeaf (x.write m) headerRoot := by
  cases x with
  | insertLeaf root n beefyRoot proof =>
    obtain ⟨k, hk⟩ := hasLeaf_iff.1 h
    exact hasLeaf_iff.2 ⟨k, Std.TreeMap.mem_insert.2 (.inr hk)⟩
  | _ => exact h

/-! ### New links -/

variable {m : Maps} {r : H256}

private theorem Provable.insertParaHeader_iff (h : Provable m r) {root : H256} {proof : ParaMerkleProof} :
    Provable (Access.write m (.insertParaHeader root proof)) r ↔
      ((∃ stage3, m.msgRootChannelMerkleMap[r]? = some stage3 ∧ stage3.root = root) → HasLeaf m proof.root) := by
  obtain ⟨hr, stage3, hstage3, stage2, hstage2, hleaf⟩ := h
  simp only [Provable, HasHead, Access.write, Std.TreeMap.getElem?_insert]
  constructor
  · rintro ⟨-, stage3', hstage3', stage2', hstage2', hleaf'⟩ ⟨stage3'', hstage3'', rfl⟩
    obtain rfl := Option.some.inj (hstage3'.symm.trans hstage3'')
    simp only [Std.compare_self, ↓reduceIte, Option.some.injEq] at hstage2'
    rw [hstage2']
    exact hleaf'
  · intro hnew
    refine ⟨hr, stage3, hstage3, ?_⟩
    by_cases hroot : stage3.root = root
    · subst hroot
      exact ⟨proof, by simp, hnew ⟨stage3, hstage3, rfl⟩⟩
    · have hne : compare root stage3.root ≠ .eq := fun h => hroot (Std.LawfulEqOrd.eq_of_compare h).symm
      exact ⟨stage2, by simp [hne, hstage2], hleaf⟩

private theorem Provable.insertMsgRootChannel_iff (h : Provable m r) {root : H256} {proof : ChannelMerkleProof} :
    Provable (Access.write m (.insertMsgRootChannel root proof)) r ↔ (root = r → HasHead m proof.root) := by
  obtain ⟨hr, stage3, hstage3, hhead⟩ := h
  simp only [Provable, Access.write, Std.TreeMap.getElem?_insert]
  constructor
  · rintro ⟨-, stage3', hstage3', hhead'⟩ rfl
    simp only [Std.compare_self, ↓reduceIte, Option.some.injEq] at hstage3'
    rw [hstage3']
    exact hhead'
  · intro hnew
    refine ⟨hr, ?_⟩
    by_cases hroot : root = r
    · exact ⟨proof, by simp [hroot], hnew hroot⟩
    · have hne : compare root r ≠ .eq := fun h => hroot (Std.LawfulEqOrd.eq_of_compare h)
      exact ⟨stage3, by simp [hne, hstage3], hhead⟩

/-- What the collectors do else does not touch the chain. -/
private theorem Provable.write_other (h : Provable m r) {x : Access} (hx : x.task ≠ .generator)
    (hheader : ∀ root proof, x ≠ .insertParaHeader root proof)
    (hchannel : ∀ root proof, x ≠ .insertMsgRootChannel root proof) : Provable (x.write m) r := by
  obtain ⟨hr, stage3, hstage3, stage2, hstage2, hleaf⟩ := h
  cases x with
  | insertLeaf headerRoot n beefyRoot proof =>
    exact ⟨hr, stage3, hstage3, stage2, hstage2, hleaf.write (.insertLeaf headerRoot n beefyRoot proof)⟩
  | insertMsgRoot root proof => exact ⟨Std.TreeMap.mem_insert.2 (.inr hr), stage3, hstage3, stage2, hstage2, hleaf⟩
  | insertParaHeader root proof => exact absurd rfl (hheader root proof)
  | insertMsgRootChannel root proof => exact absurd rfl (hchannel root proof)
  | removeMsgRoot root => exact absurd rfl hx
  | _ => exact ⟨hr, stage3, hstage3, stage2, hstage2, hleaf⟩

private theorem leadsOn_busy (s : State) (i : TaskId) (x : Access) : LeadsOn r s (.answer i (.tryLock x) none) := by
  cases x with
  | insertParaHeader root proof => intro ha; cases ha
  | insertMsgRootChannel root proof => intro ha; cases ha
  | _ => trivial

/-- A step of a collector keeps a root provable exactly when a new link leads on. -/
private theorem Provable.step_iff {best : H256} {s s' : State} (hs : Reachable (machine env).step (boot best) s)
    (h : Provable s.shared.maps r) {e : Event} (he : IsCollecting e) (hstep : (machine env).step s e = some s') :
    Provable s'.shared.maps r ↔ LeadsOn r s e := by
  cases Machine.moves_of_step hstep with
  | start i b hi => exact iff_of_true h trivial
  | answer i b hist q k a shared hi hh =>
    cases handled_of_handle hh with
    | request q a => exact iff_of_true h trivial
    | busy x => exact iff_of_true h (leadsOn_busy s i x)
    | locked x =>
      have hasked := (((dropSpec_sound env).holds _ trivial hs).running i b hist _ hi).1.1 he
      have htask : x.task ≠ .generator := fun hx => he (hasked.symm.trans hx)
      cases x with
      | insertParaHeader root proof =>
        refine h.insertParaHeader_iff.trans ?_
        exact ⟨fun hnew _ => hnew, fun hnew => hnew rfl⟩
      | insertMsgRootChannel root proof =>
        refine h.insertMsgRootChannel_iff.trans ?_
        exact ⟨fun hnew _ => hnew, fun hnew => hnew rfl⟩
      | _ => exact iff_of_true (h.write_other htask (by simp) (by simp)) trivial
  | finish i b hist p r' t hi hp ht => exact iff_of_true h trivial
  | world w => exact iff_of_true h trivial

/-- From every reachable state: a provable root stays provable through all steps of the collectors, if every new link
in its chain leads on when it is stored. -/
theorem provable_kept (env : Externals) (best : H256) (s s' : State) (r : H256)
    (hs : Reachable (machine env).step (boot best) s) (hr : Provable s.shared.maps r)
    (h : Reaches (machine env).step (fun s e => IsCollecting e ∧ LeadsOn r s e) s s') : Provable s'.shared.maps r := by
  refine (h.invariant (I := fun s => Reachable (machine env).step (boot best) s ∧ Provable s.shared.maps r)
    ⟨hs, hr⟩ ?_).2
  rintro s e s' ⟨hs, hr⟩ ⟨he, hleads⟩ hstep
  exact ⟨hs.tail trivial hstep, (hr.step_iff hs he hstep).2 hleads⟩

/-! ### A later block of the relay chain -/

/-- A later block with another root of heads; its BEEFY leaf is still over the former one. -/
def laterRelayNode : Nodes := fun best r => match r with
  | .getParaHeadsProof .. => some (some ⟨.repeatByte 0x51, [], 2, 0, headWith 1000 (.repeatByte 0x12)⟩)
  | r => relayNode best r

/-- The relay collector has seen another block. -/
def recollected (nodes : Nodes) : State := relayer.perform (freeReply nodes) collected .relay ⟨.repeatByte 0x50, 6⟩

private theorem provable_collected : Provable collected.shared.maps (.repeatByte 0x21) := by decide +kernel

/-- What the relay collector stores at a block whose heads are those of the first one. -/
private theorem collectRelayData_relayNode (block : Block) :
    Prog.wp (fun q a => ∃ s, a = (freeReply relayNode s q).1)
      (fun _ q => AskedBy .relay q ∧ ∀ root proof, q = .tryLock (.insertParaHeader root proof) →
        proof.root = relayLeaf.leafExtra) []
      (collectRelayData (.documented xcmrRoot) block) (fun _ _ => True) := by
  refine wp_askedBy_and (.documented xcmrRoot) (i := .relay) ?_
  simp only [machine, collectRelayData, request, tryLock, orError, first, generateMmrProof, Prog.wp_bind, Prog.wp_query,
    Prog.wp_pure, Prog.onOk_ok, Prog.wp_ofOption, Prog.wp_check, Prog.onOk_error, freeReply, relayNode,
    Query.tryLock.injEq, reduceCtorEq, IsEmpty.forall_iff, implies_true, and_true, true_and]
  rintro _ _ _ _ _ _ _ _ _ _ _ _ _ _ _ _ _ _ _ _ _ ⟨_, rfl⟩ paraMerkleProof hproof _ root proof heq
  cases hproof
  rw [← (Access.insertParaHeader.inj heq).2]

theorem provable_kept_recollected :
    Reachable relayer.step (boot H256.zero) collected ∧ Provable collected.shared.maps (.repeatByte 0x21) ∧
      Provable (recollected relayNode).shared.maps (.repeatByte 0x21) := by
  refine ⟨reachable_collected, provable_collected, provable_kept (.documented xcmrRoot) H256.zero collected _ _
    reachable_collected provable_collected ?_⟩
  have hne : TaskId.relay ≠ .generator := by decide
  refine Machine.reaches_perform_of_wp (J := fun _ s => HasLeaf s.maps relayLeaf.leafExtra) ?_ ?_
    (collectRelayData_relayNode _) ?_ collected_relay ⟨hne, trivial⟩ fun _ => ⟨hne, trivial⟩
  · intro s _ q hs _
    refine ⟨handle_freeReply relayNode s q, ?_⟩
    cases q with
    | request r => exact hs
    | tryLock x => exact hs.write x
  · intro s h q k hs hq hi
    refine ⟨hne, ?_⟩
    cases q with
    | request r => trivial
    | tryLock x =>
      cases x with
      | insertParaHeader root proof =>
        intro _ _
        rw [hq.2 root proof rfl]
        exact hs
      | insertMsgRootChannel root proof => cases hq.1
      | _ => trivial
  · decide +kernel

/-- The later block replaces the proof of the head by one for which there is no BEEFY proof. -/
theorem provable_lost :
    Reachable relayer.step (boot H256.zero) collected ∧ Provable collected.shared.maps (.repeatByte 0x21) ∧
      Reaches relayer.step (fun _ e => IsCollecting e) collected (recollected laterRelayNode) ∧
      ¬ Provable (recollected laterRelayNode).shared.maps (.repeatByte 0x21) := by
  refine ⟨reachable_collected, provable_collected, ?_, by decide +kernel⟩
  have hne : TaskId.relay ≠ .generator := by decide
  exact reaches_perform_free laterRelayNode _ collected_relay hne (fun _ _ => hne) fun _ => hne

end XcmpPrototype.Relayer
