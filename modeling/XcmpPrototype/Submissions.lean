import XcmpPrototype.Delivery

/-!
# How often a message is submitted

The generator reads the least pending root, looks up the other stages without holding a lock, removes the root and then
submits.  In the meantime the collector may insert the same root again, and any lock may be taken.  Nevertheless a root
is submitted at most as often as it was inserted (`submissions_le_insertions`): a submission follows a removal that
found the root, and a removal that finds a root uses up an insertion.
-/

open Scale

namespace XcmpPrototype.Relayer

variable {env : Externals}

/-! ### Insertions and submissions -/

/-- A value is put under the root `r`. -/
def isInsertion (r : H256) : Sigma Answer → Bool
  | ⟨.tryLock (.insertMsgRoot r' _), a⟩ => r' = r && Option.isSome a
  | _ => false

/-- How often the collector has inserted the root `r`. -/
def insertions (s : State) (r : H256) : ℕ := (s.record .para).countP (isInsertion r)

/-- The submissions of a call that has taken up the root `r`. -/
def submissionsUnder (r : H256) (h : Hist Answer) : ℕ :=
  if h.any (isPick r) then h.countP fun x => isSubmission x.1 else 0

/-- How often a proof was submitted whose stage 4 was read under the root `r`. -/
def submissions (s : State) (r : H256) : ℕ := ((s.hists .generator).map (submissionsUnder r)).sum

/-- The messages of a proof are those of a stored value. -/
def ReadFrom (v : LeavesProof) (p : XcmpProof) : Prop :=
  decodeLeaves v.leaves = some p.stage4.2 ∧ decodeProof v.proof = some p.stage4.1

/-! ### One call -/

/-- A call reads its root before it submits, and submits once, after the removal. -/
def SubmitAsked (h : Hist Answer) : Query → Prop
  | .tryLock .firstMsgRoot => ∀ x ∈ h, isSubmission x.1 = false
  | .request (.signAndSubmit p _) => (∀ x ∈ h, isSubmission x.1 = false) ∧
      ∀ r v, ⟨.tryLock .firstMsgRoot, some (some (r, v))⟩ ∈ h → h.any (isRemoval r) = true ∧ ReadFrom v p
  | _ => True

private theorem generateXcmpProof_submitAsked :
    Prog.wp (fun _ _ => True) SubmitAsked [] generateXcmpProof (fun _ _ => True) := by
  simp only [generateXcmpProof, lookUpStages, removeAndSubmit, request, tryLock, orError, Prog.wp_bind, Prog.wp_query,
    Prog.wp_pure, Prog.onOk_ok, Prog.wp_ofOption, Prog.wp_check, Prog.onOk_error, SubmitAsked, implies_true, and_true,
    true_and, forall_const]
  intro block _ _
  refine ⟨by simp [isSubmission], ?_⟩
  intro entry stage4 hentry rootsMatch _ stage4Leaves hleaves stage4Proof hproof _ _ _ _ _ _ _ _ _ _ _ _ _ removed v
    hremoved _ _ _ _
  refine wp_submitXcmpProof ⟨by simp [isSubmission], ?_⟩ fun _ => ⟨trivial, trivial⟩
  -- the call has read one root only, and the proof is made of that entry
  intro r v' hpick
  have hr : entry = some (some (r, v')) := by simpa [eq_comm] using hpick
  rw [hr, Option.join_some, Option.some.injEq] at hentry
  subst hentry
  exact ⟨by simp [isRemoval, hremoved], hleaves, hproof⟩

/-- The submissions of a call are covered by removals of its root, and their messages were read under it. -/
structure Covered (h : Hist Answer) : Prop where
  removed : ∀ r, h.any (isPick r) = true → (h.countP fun x => isSubmission x.1) ≤ h.countP (isRemoval r)
  readFrom : ∀ p root a, ⟨.request (.signAndSubmit p root), a⟩ ∈ h →
    ∀ r v, ⟨.tryLock .firstMsgRoot, some (some (r, v))⟩ ∈ h → ReadFrom v p

private theorem covered_of_no_submission {h : Hist Answer} (hh : ∀ x ∈ h, isSubmission x.1 = false) : Covered h := by
  refine ⟨fun r _ => ?_, fun p root a hmem => ?_⟩
  · rw [List.countP_eq_zero.2 fun x hx => by simp [hh x hx]]
    exact Nat.zero_le _
  · cases hh _ hmem

private theorem exists_mem_of_isPick {h : Hist Answer} {r : H256} (hr : h.any (isPick r) = true) :
    ∃ v, ⟨.tryLock .firstMsgRoot, some (some (r, v))⟩ ∈ h := by
  obtain ⟨x, hmem, hx⟩ := List.any_eq_true.1 hr
  unfold isPick at hx
  split at hx
  · obtain ⟨e, he, hr⟩ := (Option.any_eq_true _ _).1 hx
    obtain rfl := of_decide_eq_true hr
    rw [Option.join_eq_some_iff.1 he] at hmem
    exact ⟨e.2, hmem⟩
  · cases hx

/-- Questions other than these two make no difference. -/
private theorem Covered.cons_other {h : Hist Answer} (hh : Covered h) {q : Query} (hsubmit : isSubmission q = false)
    (hpick : q ≠ .tryLock .firstMsgRoot) (a : Answer q) : Covered (⟨q, a⟩ :: h) := by
  refine ⟨fun r hr => ?_, fun p root a' hmem r v hmem' => ?_⟩
  · have hno : isPick r ⟨q, a⟩ = false := by
      unfold isPick
      split
      · rename_i heq
        cases heq
        exact absurd rfl hpick
      · rfl
    rw [List.any_cons, hno, Bool.false_or] at hr
    rw [List.countP_cons_of_neg (by simp [hsubmit])]
    exact (hh.removed r hr).trans ((List.sublist_cons_self _ h).countP_le)
  · refine hh.readFrom p root a' ((List.mem_cons.1 hmem).resolve_left ?_) r v
      ((List.mem_cons.1 hmem').resolve_left ?_)
    · rintro heq
      cases heq
      cases hsubmit
    · rintro heq
      cases heq
      exact hpick rfl

private theorem Covered.cons_submission {h : Hist Answer} {p : XcmpProof} {root : H256}
    (hq : SubmitAsked h (.request (.signAndSubmit p root))) (a : Option Unit) :
    Covered (⟨.request (.signAndSubmit p root), a⟩ :: h) := by
  obtain ⟨hnone, hpicks⟩ := hq
  refine ⟨fun r hr => ?_, fun p' root' a' hmem r v hmem' => ?_⟩
  · rw [List.any_cons, show isPick r ⟨.request (.signAndSubmit p root), a⟩ = false from rfl, Bool.false_or] at hr
    obtain ⟨v, hpick⟩ := exists_mem_of_isPick hr
    obtain ⟨x, hx, hremoval⟩ := List.any_eq_true.1 (hpicks r v hpick).1
    have hone : 0 < h.countP (isRemoval r) := List.countP_pos_iff.2 ⟨x, hx, hremoval⟩
    have hzero : (h.countP fun x => isSubmission x.1) = 0 := List.countP_eq_zero.2 fun x hx => by simp [hnone x hx]
    rw [List.countP_cons_of_pos rfl, List.countP_cons_of_neg (by simp [isRemoval]), hzero]
    exact hone
  · have hpick := (List.mem_cons.1 hmem').resolve_left (by rintro heq; cases heq)
    rcases List.mem_cons.1 hmem with heq | hmem
    · cases heq
      exact (hpicks r v hpick).2
    · cases hnone _ hmem

private theorem Covered.cons {h : Hist Answer} (hh : Covered h) {q : Query} (hq : SubmitAsked h q) (a : Answer q) :
    Covered (⟨q, a⟩ :: h) := by
  cases q with
  | request r =>
    cases r with
    | signAndSubmit p root => exact .cons_submission hq a
    | _ => exact hh.cons_other rfl (by simp) a
  | tryLock x =>
    by_cases hx : x = .firstMsgRoot
    · subst hx
      refine covered_of_no_submission fun y hy => ?_
      rcases List.mem_cons.1 hy with rfl | hy
      · rfl
      · exact hq y hy
    · exact hh.cons_other rfl (by simpa using hx) a

def submitSpec : Machine.Spec TaskId Shared Block Answer Failure where
  inv _ := True
  loc
    | .generator, _, _, h => Covered h
    | _, _, _, _ => True
  known _ _ _ _ := True
  asked i _ h q := AskedBy i q ∧ (i = .generator → SubmitAsked h q)
  post _ _ _ _ := True

theorem submitSpec_sound (env : Externals) : submitSpec.Sound (machine env) (fun _ _ => True) where
  body i b := by
    have hbody := body_askedBy_and env (j := .generator) (b := b) generateXcmpProof_submitAsked i
    exact Prog.wp_mono (fun _ _ _ => trivial) hbody
  start i b shared _ := by
    cases i with
    | generator => exact covered_of_no_submission (by simp)
    | _ => trivial
  answer s i b h q k a shared _ _ hloc hasked _ _ := by
    refine ⟨trivial, ?_, trivial⟩
    cases i with
    | generator => exact Covered.cons hloc (hasked.2 rfl) a
    | _ => trivial
  other i _ _ _ _ _ _ _ _ _ _ hloc _ _ := by
    cases i with
    | generator => exact hloc
    | _ => trivial
  world _ _ _ := by
    refine ⟨trivial, fun i b h hloc => ?_⟩
    cases i with
    | generator => exact hloc
    | _ => trivial

/-! ### All calls -/

/-- Every pending root, and every removal that found one, stands for an insertion, and what is stored or was read was
inserted. -/
structure Accounted (s : Shared) (record : TaskId → Hist Answer) : Prop where
  counted : ∀ r, (record .generator).countP (isRemoval r) + (if r ∈ s.maps.msgRootMap then 1 else 0) ≤
    (record .para).countP (isInsertion r)
  stored : ∀ (r : H256) v, s.maps.msgRootMap[r]? = some v → ⟨.tryLock (.insertMsgRoot r v), some ()⟩ ∈ record .para
  picked : ∀ r v, ⟨.tryLock .firstMsgRoot, some (some (r, v))⟩ ∈ record .generator →
    ⟨.tryLock (.insertMsgRoot r v), some ()⟩ ∈ record .para

variable {s s' : Shared} {record : TaskId → Hist Answer}

private theorem countP_update_cons {p : Sigma Answer → Bool} {i j : TaskId} {x : Sigma Answer} :
    (Function.update record i (x :: record i) j).countP p =
      (record j).countP p + if j = i ∧ p x = true then 1 else 0 := by
  by_cases hj : j = i
  · subst hj
    simp [List.countP_cons]
  · simp [hj]

/-- An answer that is none of the three changes nothing in the account. -/
private theorem Accounted.cons_other (h : Accounted s record) (hmap : s'.maps.msgRootMap = s.maps.msgRootMap)
    {x : Sigma Answer} (hremoval : ∀ r, isRemoval r x = false) (hinsertion : ∀ r, isInsertion r x = false)
    (hpick : ∀ r, isPick r x = false) (i : TaskId) :
    Accounted s' (Function.update record i (x :: record i)) := by
  refine ⟨?_, ?_, ?_⟩
  · intro r
    simpa [countP_update_cons, hremoval, hinsertion, hmap] using h.counted r
  · intro r v hv
    rw [hmap] at hv
    exact Machine.mem_update_cons_of_mem (h.stored r v hv)
  · intro r v hv
    rcases Machine.mem_update_cons.1 hv with ⟨-, rfl⟩ | hv
    · have := hpick r
      simp [isPick] at this
    · exact Machine.mem_update_cons_of_mem (h.picked r v hv)

private theorem Accounted.insert (h : Accounted s record) (r : H256) (v : LeavesProof) :
    Accounted { s with maps := Access.write s.maps (.insertMsgRoot r v) }
      (Function.update record .para (⟨.tryLock (.insertMsgRoot r v), some ()⟩ :: record .para)) := by
  refine ⟨?_, ?_, ?_⟩
  · intro r'
    have hcount := h.counted r'
    simp only [countP_update_cons, reduceCtorEq, false_and, ↓reduceIte, add_zero, true_and, Access.write,
      Std.TreeMap.mem_insert, Std.compare_eq_iff_eq, isInsertion, Option.isSome_some, Bool.and_true, decide_eq_true_eq]
    by_cases hr : r = r'
    · simp only [hr, true_or, ↓reduceIte]
      omega
    · simpa only [hr, false_or, ↓reduceIte, add_zero] using hcount
  · have hold : ∀ (r' : H256) v', s.maps.msgRootMap[r']? = some v' → ⟨.tryLock (.insertMsgRoot r' v'), some ()⟩ ∈
        Function.update record .para (⟨.tryLock (.insertMsgRoot r v), some ()⟩ :: record .para) .para := by
      intro r' v' hv
      exact Machine.mem_update_cons_of_mem (h.stored r' v' hv)
    exact forall_getElem?_insert hold (Machine.mem_update_cons.2 (.inl ⟨rfl, rfl⟩))
  · intro r' v' hv
    rcases Machine.mem_update_cons.1 hv with ⟨hi, -⟩ | hv
    · cases hi
    · exact Machine.mem_update_cons_of_mem (h.picked r' v' hv)

/-- A removal takes a root from the pending ones into the account. -/
private theorem Accounted.remove (h : Accounted s record) (r : H256) :
    Accounted { s with maps := Access.write s.maps (.removeMsgRoot r) }
      (Function.update record .generator (⟨.tryLock (.removeMsgRoot r), some (s.maps.msgRootMap[r]?)⟩ ::
        record .generator)) := by
  refine ⟨?_, ?_, ?_⟩
  · intro r'
    have hcount := h.counted r'
    simp only [countP_update_cons, reduceCtorEq, false_and, ↓reduceIte, add_zero, true_and, Access.write,
      Std.TreeMap.mem_erase, isRemoval, Option.join_some, Bool.and_eq_true, decide_eq_true_eq,
      ← Std.TreeMap.mem_iff_isSome_getElem?]
    by_cases hr : r = r'
    · subst hr
      simpa using hcount
    · simpa [hr] using hcount
  · intro r' v' hv
    have hold : s.maps.msgRootMap[r']? = some v' := by
      rw [Access.write, Std.TreeMap.getElem?_erase] at hv
      split at hv
      · cases hv
      · exact hv
    exact Machine.mem_update_cons_of_mem (h.stored r' v' hold)
  · intro r' v' hv
    rcases Machine.mem_update_cons.1 hv with ⟨-, heq⟩ | hv
    · cases heq
    · exact Machine.mem_update_cons_of_mem (h.picked r' v' hv)

private theorem Accounted.pick (h : Accounted s record) :
    Accounted s (Function.update record .generator (⟨.tryLock .firstMsgRoot, some s.maps.msgRootMap.toList.head?⟩ ::
        record .generator)) := by
  refine ⟨?_, ?_, ?_⟩
  · intro r
    simpa [countP_update_cons, isRemoval, isInsertion] using h.counted r
  · intro r v hv
    exact Machine.mem_update_cons_of_mem (h.stored r v hv)
  · intro r v hv
    apply Machine.mem_update_cons_of_mem
    rcases Machine.mem_update_cons.1 hv with ⟨-, heq⟩ | hv
    · have hhead : s.maps.msgRootMap.toList.head? = some (r, v) := by simpa [eq_comm] using heq
      exact h.stored r v (Std.TreeMap.mem_toList_iff_getElem?_eq_some.1 (List.mem_of_head? hhead))
    · exact h.picked r v hv

private theorem Accounted.answer (h : Accounted s record) {i : TaskId} {q : Query} {a : Answer q} (hq : AskedBy i q)
    (hh : Handled s q a s') : Accounted s' (Function.update record i (⟨q, a⟩ :: record i)) := by
  cases hh with
  | request r a => exact h.cons_other rfl (fun _ => rfl) (fun _ => rfl) (fun _ => rfl) i
  | busy x =>
    refine h.cons_other rfl (fun r => ?_) (fun r => ?_) (fun r => ?_) i
    · cases x <;> simp [isRemoval]
    · cases x <;> simp [isInsertion]
    · cases x <;> simp [isPick]
  | locked x =>
    cases x with
    | insertMsgRoot r v =>
      obtain rfl : TaskId.para = i := hq
      exact h.insert r v
    | removeMsgRoot r =>
      obtain rfl : TaskId.generator = i := hq
      exact h.remove r
    | firstMsgRoot =>
      obtain rfl : TaskId.generator = i := hq
      exact h.pick
    | _ => refine h.cons_other ?_ ?_ ?_ ?_ i <;> intros <;> rfl

theorem Reachable.accounted {best : H256} {s : State} (h : Reachable (machine env).step (boot best) s) :
    Accounted s.shared s.record := by
  refine (submitSpec_sound env).record_invariant trivial ?_ ?_ ?_ h
  · exact ⟨by simp [Maps.empty], by simp [Maps.empty], by simp⟩
  · intro i b h q a s s' record hq hh haccount
    exact haccount.answer hq.1 (handled_of_handle hh)
  · intro s best record haccount
    exact ⟨haccount.counted, haccount.stored, haccount.picked⟩

/-- In calls that are covered, submissions are at most as many as removals. -/
private theorem submissions_le_removals {s : State} (hcovered : ∀ h ∈ s.hists .generator, Covered h) (r : H256) :
    submissions s r ≤ (s.record .generator).countP (isRemoval r) := by
  rw [submissions, Machine.State.record, List.countP_flatten]
  apply List.sum_le_sum
  intro h hh
  unfold submissionsUnder
  split
  · rename_i hpick
    exact (hcovered h hh).removed r hpick
  · exact Nat.zero_le _

/-- In every run of the relayer a root is submitted at most as often as it was inserted, and the messages of every
submission under a root decode from a value that was inserted under it. -/
theorem submissions_le_insertions (env : Externals) (best : H256) (s : State)
    (h : Reachable (machine env).step (boot best) s) (r : H256) :
    submissions s r ≤ insertions s r ∧
      ∀ h ∈ s.hists .generator, h.any (isPick r) = true →
        ∀ p root a, ⟨.request (.signAndSubmit p root), a⟩ ∈ h →
          ∃ v, ⟨.tryLock (.insertMsgRoot r v), some ()⟩ ∈ s.record .para ∧
            decodeLeaves v.leaves = some p.stage4.2 ∧ decodeProof v.proof = some p.stage4.1 := by
  have haccount := Reachable.accounted h
  have hholds := (submitSpec_sound env).holds ⟨.empty, best⟩ trivial h
  have hcovered : ∀ h ∈ s.hists .generator, Covered h := fun _ hh => hholds.hists (fun _ _ _ hloc => hloc) hh
  constructor
  · have hremovals := submissions_le_removals hcovered r
    have hcounted := haccount.counted r
    unfold insertions
    omega
  · intro h hh hpick p root a hmem
    obtain ⟨v, hv⟩ := exists_mem_of_isPick hpick
    exact ⟨v, haccount.picked r v (List.mem_flatten.2 ⟨h, hh, hv⟩), (hcovered h hh).readFrom p root a hmem r v hv⟩

theorem submissions_le_insertions_delivering :
    submissions (generated deliveringNode) (.repeatByte 0x21) = 1 ∧
      submissions (generated deliveringNode) (.repeatByte 0x21) ≤
        insertions (generated deliveringNode) (.repeatByte 0x21) :=
  ⟨by decide +kernel,
    (submissions_le_insertions (.documented xcmrRoot) H256.zero _ (reachable_generated deliveringNode) _).1⟩

end XcmpPrototype.Relayer
