import XcmpPrototype.Submissions

/-!
# Many calls of the generator

One call of the generator handles the least pending root.  With all locks free and all requests successful, a sequence
of calls works through the pending roots in ascending order, one root for each call, up to the first root that has not
all its stages yet; from there on every call fails at that same root.  `generator_drains` says this for any number of
calls: what was submitted, in which order, and what is still pending.
-/

open Scale

namespace XcmpPrototype.Relayer

variable {env : Externals}

/-! ### The pending roots in order -/

/-- Without its first entry a map has the other entries, in the same order. -/
theorem toList_erase_head {κ β : Type} {cmp : κ → κ → Ordering} [Std.TransCmp cmp] [Std.LawfulEqCmp cmp]
    {m : Std.TreeMap κ β cmp} {e : κ × β} {es : List (κ × β)} (h : m.toList = e :: es) :
    (m.erase e.1).toList = es := by
  have hsorted : (e :: es).Pairwise fun a b => cmp a.1 b.1 = .lt := h ▸ Std.TreeMap.ordered_keys_toList
  have hne : ∀ x ∈ es, cmp e.1 x.1 ≠ .eq := by
    intro x hx heq
    rw [(List.pairwise_cons.1 hsorted).1 x hx] at heq
    cases heq
  have hmem : ∀ x, x ∈ (m.erase e.1).toList ↔ x ∈ es := by
    intro x
    have hx : x ∈ m.toList ↔ m[x.1]? = some x.2 := Std.TreeMap.mem_toList_iff_getElem?_eq_some
    rw [h, List.mem_cons] at hx
    rw [show x = (x.1, x.2) from rfl, Std.TreeMap.mem_toList_iff_getElem?_eq_some, Std.TreeMap.getElem?_erase]
    constructor
    · intro hs
      split at hs
      · cases hs
      · rename_i hcmp
        refine (hx.2 hs).resolve_left ?_
        rintro rfl
        exact hcmp Std.ReflCmp.compare_self
    · intro hs
      rw [if_neg (hne _ hs)]
      exact hx.1 (Or.inr hs)
  have hnodup : ∀ {l : List (κ × β)}, (l.Pairwise fun a b => cmp a.1 b.1 = .lt) → l.Nodup := by
    intro l hl
    refine hl.imp ?_
    rintro a b hab rfl
    have hself : cmp a.1 a.1 = .eq := Std.ReflCmp.compare_self
    rw [hself] at hab
    cases hab
  have hperm : (m.erase e.1).toList.Perm es :=
    (List.perm_ext_iff_of_nodup (hnodup Std.TreeMap.ordered_keys_toList) (hnodup (List.pairwise_cons.1 hsorted).2)).2
      hmem
  refine hperm.eq_of_pairwise ?_ Std.TreeMap.ordered_keys_toList (List.pairwise_cons.1 hsorted).2
  intro a b _ _ hab hba
  exact absurd hba (Std.OrientedCmp.not_lt_of_lt hab)

/-- Removing another root does not change what is found for a root. -/
theorem chain_removeMsgRoot {m : Maps} {r r' : H256} (h : r' ≠ r) :
    chain (Access.write m (.removeMsgRoot r')) r = chain m r := by
  have hget : (m.msgRootMap.erase r')[r]? = m.msgRootMap[r]? := by
    rw [Std.TreeMap.getElem?_erase, if_neg fun heq => h (Std.LawfulEqOrd.eq_of_compare heq)]
  simp only [chain, Access.write, hget, Access.read]

/-! ### One call -/

/-- A proof that was handed to a node, and the root it was handed with. -/
def submission : Sigma Answer → Option (XcmpProof × H256)
  | ⟨.request (.signAndSubmit p root), some _⟩ => some (p, root)
  | _ => none

/-- What was submitted, the latest first. -/
def submitted (h : Hist Answer) : List (XcmpProof × H256) := h.filterMap submission

variable {nodes : Nodes} {s : Shared}

private theorem submitted_of_isLookUp {h : Hist Answer} (hh : ∀ x ∈ h, IsLookUp x.1) : submitted h = [] := by
  refine List.filterMap_eq_nil_iff.2 fun x hx => ?_
  have hlook := hh x hx
  unfold submission
  split
  · cases hlook
  · rfl

private theorem alone_removeAndSubmit (hnodes : ∀ best r, (nodes best r).isSome) {stages : H256 × XcmpProof × H256}
    (hstages : stages.1 ∈ s.maps.msgRootMap) (h : Hist Answer) :
    ∃ new, Prog.alone (fun _ => false) (freeReply nodes) s h (removeAndSubmit stages) =
        ({ s with maps := Access.write s.maps (.removeMsgRoot stages.1) }, new ++ h, .ret ()) ∧
      submitted new = [stages.2] := by
  obtain ⟨v, hv⟩ := Option.isSome_iff_exists.1 (Std.TreeMap.mem_iff_isSome_getElem?.1 hstages)
  obtain ⟨api, hapi⟩ := Option.isSome_iff_exists.1 (hnodes s.relayBest .runtimeApiAtLatest)
  obtain ⟨tx, htx⟩ := Option.isSome_iff_exists.1 (hnodes s.relayBest (.signAndSubmit stages.2.1 stages.2.2))
  obtain ⟨inBlock, hinBlock⟩ := Option.isSome_iff_exists.1 (hnodes s.relayBest .waitForInBlock)
  simp only [removeAndSubmit, submitXcmpProof, request, tryLock, orError, Prog.alone_query_bind,
    Prog.alone_ofOption_bind, Prog.alone_pure, freeReply, Access.read, Option.join_some, hv, hapi, htx, hinBlock,
    Option.isSome_some, ↓reduceIte]
  exact ⟨[_, _, _, _, _, _], rfl, rfl⟩

/-- A call that finds a proof removes the root and submits the proof; any other call changes nothing. -/
private theorem alone_generateXcmpProof (hnodes : ∀ best r, (nodes best r).isSome) :
    ∃ h p, (p = .ret () ∨ ∃ e, p = .throw e) ∧
      (∀ e es x, s.maps.msgRootMap.toList = e :: es → chain s.maps e.1 = some x →
        Prog.alone (fun _ => false) (freeReply nodes) s [] generateXcmpProof =
          ({ s with maps := Access.write s.maps (.removeMsgRoot e.1) }, h, p) ∧ submitted h = [x]) ∧
      ((∀ e es, s.maps.msgRootMap.toList = e :: es → chain s.maps e.1 = none) →
        Prog.alone (fun _ => false) (freeReply nodes) s [] generateXcmpProof = (s, h, p) ∧ submitted h = []) := by
  obtain ⟨h', hl, hlookUp⟩ := alone_lookUpStages_isLookUp (s := s) hnodes
  rw [generateXcmpProof, Prog.alone_bind, hl]
  cases hfound : s.maps.msgRootMap.toList.head?.bind fun e => (chain s.maps e.1).map fun p => (e.1, p) with
  | none =>
    refine ⟨h', .throw .error, Or.inr ⟨_, rfl⟩, ?_, fun _ => ⟨rfl, submitted_of_isLookUp hlookUp⟩⟩
    intro e es x hlist hx
    rw [hlist, List.head?_cons, Option.bind_some, hx] at hfound
    cases hfound
  | some stages =>
    obtain ⟨e, hhead, hstages⟩ := Option.bind_eq_some_iff.1 hfound
    obtain ⟨x, hx, rfl⟩ := Option.map_eq_some_iff.1 hstages
    obtain ⟨es, hlist⟩ := List.head?_eq_some_iff.1 hhead
    have hmem : ((e.1, x) : H256 × XcmpProof × H256).1 ∈ s.maps.msgRootMap := (found_eq_some_iff.1 hfound).1.1
    obtain ⟨new, halone, hnew⟩ := alone_removeAndSubmit hnodes hmem h'
    refine ⟨new ++ h', .ret (), Or.inl rfl, ?_, ?_⟩
    · intro e' es' x' hlist' hx'
      rw [hlist, List.cons.injEq] at hlist'
      obtain ⟨rfl, rfl⟩ := hlist'
      rw [hx, Option.some.injEq] at hx'
      subst hx'
      refine ⟨halone, ?_⟩
      rw [submitted, List.filterMap_append]
      exact (congrArg₂ (· ++ ·) hnew (submitted_of_isLookUp hlookUp)).trans (List.append_nil _)
    · intro hnone
      rw [hnone e es hlist] at hx
      cases hx

/-- The least pending root is provable or nothing can be done. -/
theorem perform_generator (env : Externals) {s : State} (hnodes : ∀ best r, (nodes best r).isSome) (b : Block)
    (hi : s.tasks .generator = .idle) :
    ((machine env).perform (freeReply nodes) s .generator b).tasks .generator = .idle ∧
    ((∃ e es x, s.shared.maps.msgRootMap.toList = e :: es ∧ chain s.shared.maps e.1 = some x ∧
        ((machine env).perform (freeReply nodes) s .generator b).shared =
          { s.shared with maps := Access.write s.shared.maps (.removeMsgRoot e.1) } ∧
        submitted (((machine env).perform (freeReply nodes) s .generator b).record .generator) =
          x :: submitted (s.record .generator)) ∨
      ((∀ e es, s.shared.maps.msgRootMap.toList = e :: es → chain s.shared.maps e.1 = none) ∧
        ((machine env).perform (freeReply nodes) s .generator b).shared = s.shared ∧
        submitted (((machine env).perform (freeReply nodes) s .generator b).record .generator) =
          submitted (s.record .generator))) := by
  obtain ⟨h, p, hp, hsome, hnone⟩ := alone_generateXcmpProof (s := s.shared) hnodes
  have hended : p = .ret () ∨ (∃ e, p = .throw e) ∧ (machine env).survives .generator = true :=
    hp.imp_right fun he => ⟨he, rfl⟩
  by_cases hready : ∃ e es x, s.shared.maps.msgRootMap.toList = e :: es ∧ chain s.shared.maps e.1 = some x
  · obtain ⟨e, es, x, hlist, hx⟩ := hready
    obtain ⟨halone, hh⟩ := hsome e es x hlist hx
    obtain ⟨hshared, htasks, hrecord⟩ := Machine.perform_of_ended hi halone hended
    refine ⟨htasks, Or.inl ⟨e, es, x, hlist, hx, hshared, ?_⟩⟩
    rw [hrecord, submitted, List.filterMap_append]
    exact congrArg (· ++ submitted (s.record .generator)) hh
  · have hstuck : ∀ e es, s.shared.maps.msgRootMap.toList = e :: es → chain s.shared.maps e.1 = none := by
      intro e es hlist
      by_contra hx
      obtain ⟨x, hx⟩ := Option.ne_none_iff_exists'.1 hx
      exact hready ⟨e, es, x, hlist, hx⟩
    obtain ⟨halone, hh⟩ := hnone hstuck
    obtain ⟨hshared, htasks, hrecord⟩ := Machine.perform_of_ended hi halone hended
    refine ⟨htasks, Or.inr ⟨hstuck, hshared, ?_⟩⟩
    rw [hrecord, submitted, List.filterMap_append]
    exact congrArg (· ++ submitted (s.record .generator)) hh

/-! ### Many calls -/

/-- The values at the front of a list, up to the first place without one. -/
def leadingSomes {α : Type} : List (Option α) → List α
  | some a :: l => a :: leadingSomes l
  | _ => []

/-- The proofs for the first `n` pending roots, in ascending order, up to the first root that has not all its stages. -/
def readyProofs (m : Maps) (n : Nat) : List (XcmpProof × H256) :=
  leadingSomes ((m.msgRootMap.toList.take n).map fun e => chain m e.1)

/-- Calls of the generator, one after the other and each alone, with the answers that the nodes give. -/
def generatorCalls (env : Externals) (s : State) (calls : List (Block × Nodes)) : State :=
  (machine env).consume .generator s (calls.map fun c => (c.1, freeReply c.2))

section ReadyProofs

variable {m : Maps} {n : Nat}

private theorem readyProofs_of_stuck (h : ∀ e es, m.msgRootMap.toList = e :: es → chain m e.1 = none) :
    readyProofs m n = [] := by
  cases n with
  | zero => simp [readyProofs, leadingSomes]
  | succ n =>
    cases hlist : m.msgRootMap.toList with
    | nil => simp [readyProofs, hlist, leadingSomes]
    | cons e es => simp [readyProofs, hlist, h e es hlist, leadingSomes]

private theorem readyProofs_of_ready {e : H256 × LeavesProof} {es : List (H256 × LeavesProof)} {x : XcmpProof × H256}
    (hlist : m.msgRootMap.toList = e :: es) (hx : chain m e.1 = some x) :
    readyProofs m (n + 1) = x :: readyProofs (Access.write m (.removeMsgRoot e.1)) n := by
  have herase : (Access.write m (.removeMsgRoot e.1)).msgRootMap.toList = es := toList_erase_head hlist
  have hsorted : (e :: es).Pairwise fun a b => compare a.1 b.1 = .lt :=
    hlist ▸ Std.TreeMap.ordered_keys_toList
  have hchain : (es.take n).map (fun y => chain (Access.write m (.removeMsgRoot e.1)) y.1) =
      (es.take n).map fun y => chain m y.1 := by
    refine List.map_congr_left fun y hy => chain_removeMsgRoot ?_
    intro heq
    have hlt := (List.pairwise_cons.1 hsorted).1 y (List.mem_of_mem_take hy)
    have hself : compare y.1 y.1 = .eq := Std.ReflCmp.compare_self
    rw [heq, hself] at hlt
    cases hlt
  rw [readyProofs, readyProofs, herase, hchain, hlist, List.take_succ_cons, List.map_cons, hx, leadingSomes]

end ReadyProofs

theorem generatorCalls_spec (env : Externals) {s : State} (hi : s.tasks .generator = .idle)
    {calls : List (Block × Nodes)} (hcalls : ∀ c ∈ calls, ∀ best r, (c.2 best r).isSome) :
    (generatorCalls env s calls).tasks .generator = .idle ∧
      submitted ((generatorCalls env s calls).record .generator) =
        (readyProofs s.shared.maps calls.length).reverse ++ submitted (s.record .generator) ∧
      (generatorCalls env s calls).shared.maps.msgRootMap.toList =
        s.shared.maps.msgRootMap.toList.drop (readyProofs s.shared.maps calls.length).length ∧
      (generatorCalls env s calls).shared =
        { s.shared with maps :=
            { s.shared.maps with msgRootMap := (generatorCalls env s calls).shared.maps.msgRootMap } } := by
  induction calls generalizing s with
  | nil => exact ⟨hi, by simp [generatorCalls, Machine.consume, readyProofs, leadingSomes]⟩
  | cons c calls ih =>
    have hc := hcalls c List.mem_cons_self
    have hrest : ∀ c ∈ calls, ∀ best r, (c.2 best r).isSome := fun c h => hcalls c (List.mem_cons_of_mem _ h)
    have hcons : generatorCalls env s (c :: calls) =
        generatorCalls env ((machine env).perform (freeReply c.2) s .generator c.1) calls :=
      Machine.consume_cons_of_idle hi
    rw [hcons]
    obtain ⟨hidle, ⟨e, es, x, hlist, hx, hshared, hsubmitted⟩ | ⟨hstuck, hshared, hsubmitted⟩⟩ :=
      perform_generator env hc c.1 hi
    · obtain ⟨htask, hsub, hpending, hrest⟩ := ih hidle hrest
      refine ⟨htask, ?_, ?_, ?_⟩
      · rw [hsub, hshared, hsubmitted, List.length_cons, readyProofs_of_ready hlist hx]
        simp
      · rw [hpending, hshared, List.length_cons, readyProofs_of_ready hlist hx, hlist, List.length_cons,
          List.drop_succ_cons]
        exact congrArg (List.drop _) (toList_erase_head hlist)
      · rw [hrest, hshared]
        rfl
    · obtain ⟨htask, hsub, hpending, hrest⟩ := ih hidle hrest
      rw [hshared, readyProofs_of_stuck hstuck] at hsub hpending
      rw [readyProofs_of_stuck hstuck]
      refine ⟨htask, ?_, hpending, ?_⟩
      · rw [hsub, hsubmitted]
      · rw [hrest, hshared]

/-- Any number of calls of the generator, with all locks free and all requests successful: the proofs of the first
pending roots are submitted in ascending order of the roots, one for each call, up to the first root that has not all
its stages.  Exactly their roots are no longer pending, and nothing else in the maps has changed. -/
theorem generator_drains (env : Externals) (s : State) (hi : s.tasks .generator = .idle) (calls : List (Block × Nodes))
    (hcalls : ∀ c ∈ calls, ∀ best r, (c.2 best r).isSome) :
    Reachable (machine env).step s (generatorCalls env s calls) ∧
      (generatorCalls env s calls).tasks .generator = .idle ∧
      submitted ((generatorCalls env s calls).record .generator) =
        (readyProofs s.shared.maps calls.length).reverse ++ submitted (s.record .generator) ∧
      (generatorCalls env s calls).shared.maps.msgRootMap.toList =
        s.shared.maps.msgRootMap.toList.drop (readyProofs s.shared.maps calls.length).length ∧
      (generatorCalls env s calls).shared =
        { s.shared with maps :=
            { s.shared.maps with msgRootMap := (generatorCalls env s calls).shared.maps.msgRootMap } } := by
  refine ⟨Machine.reachable_consume ?_, generatorCalls_spec env hi hcalls⟩
  intro x hx s q
  obtain ⟨c, _, rfl⟩ := List.mem_map.1 hx
  exact handle_freeReply c.2 s q

/-- A later block with a larger root of messages, for which the node has no channel proof. -/
def unprovenNode : Nodes := fun best r => match r with
  | .getXcmpChannelsProof .. => some none
  | r => paraNode ⟨.repeatByte 0x40, 9⟩ (.repeatByte 0x23) best r

/-- Two roots that are ready and one that is not. -/
def backlog : State :=
  relayer.perform (freeReply unprovenNode)
    (relayer.perform (freeReply (paraNode ⟨.repeatByte 0x30, 8⟩ (.repeatByte 0x22))) collected .para
      ⟨.repeatByte 0x30, 8⟩) .para ⟨.repeatByte 0x40, 9⟩

theorem backlog_generator : backlog.tasks .generator = .idle := by
  rw [backlog, Machine.perform_tasks_of_ne (by decide), Machine.perform_tasks_of_ne (by decide), collected_generator]

def threeCalls : List (Block × Nodes) := List.replicate 3 (paraBlock, deliveringNode)

theorem generator_drains_backlog :
    (submitted ((generatorCalls (.documented xcmrRoot) backlog threeCalls).record .generator)).map (·.1.stage3.leaf) =
        [.repeatByte 0x22, .repeatByte 0x21] ∧
      (generatorCalls (.documented xcmrRoot) backlog threeCalls).shared.maps.msgRootMap.toList.map Prod.fst =
        [.repeatByte 0x23] := by
  have hready : ((readyProofs backlog.shared.maps 3).map (·.1.stage3.leaf)) =
      [.repeatByte 0x21, .repeatByte 0x22] := by decide +kernel
  have hpending : backlog.shared.maps.msgRootMap.toList.map Prod.fst =
      [.repeatByte 0x21, .repeatByte 0x22, .repeatByte 0x23] := by decide +kernel
  have hnone : submitted (backlog.record .generator) = [] := by decide +kernel
  have hlength : (readyProofs backlog.shared.maps threeCalls.length).length = 2 := by decide +kernel
  obtain ⟨-, -, hsubmitted, hleft, -⟩ := generator_drains (.documented xcmrRoot) backlog backlog_generator threeCalls
    (fun c hc best r => by rw [List.eq_of_mem_replicate hc]; cases r <;> rfl)
  constructor
  · rw [hsubmitted, hnone, List.append_nil, List.map_reverse]
    exact congrArg List.reverse hready
  · rw [hleft, hlength, List.map_drop, hpending]
    rfl

end XcmpPrototype.Relayer
