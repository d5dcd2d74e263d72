import XcmpPrototype.Delivery

/-!
# The BEEFY root a proof is for

`LEAVES_BEEFY_MMR_MAP` may hold several entries for one root of parachain heads, one for each relay chain block with
these heads.  The generator takes the last of them in the order of the map.  The keys are ordered by root and then by
number, so this is the entry of the greatest number, whatever order the blocks came in; and an entry holds what was
inserted under its key last (`stage1_newest`).
-/

open Scale

namespace XcmpPrototype.Relayer

variable {env : Externals}

/-! ### Insertions -/

/-- A key of `LEAVES_BEEFY_MMR_MAP` and a value. -/
abbrev LeafEntry := (H256 × UInt32) × H256 × LeavesProof

def leafInsertion : Sigma Answer → Option LeafEntry
  | ⟨.tryLock (.insertLeaf headerRoot n beefyRoot proof), some _⟩ => some ((headerRoot, n), (beefyRoot, proof))
  | _ => none

/-- What was inserted, the latest first. -/
def leafInsertions (h : Hist Answer) : List LeafEntry := h.filterMap leafInsertion

/-- `n` is the greatest number ever inserted with the header root, and `v` was inserted last under both. -/
structure Newest (insertions : List LeafEntry) (headerRoot : H256) (n : UInt32) (v : H256 × LeavesProof) : Prop where
  greatest : ∀ x ∈ insertions, x.1.1 = headerRoot → x.1.2 ≤ n
  last : (insertions.find? fun x => x.1 = (headerRoot, n)) = some ((headerRoot, n), v)

/-- The map holds under each key what was inserted last. -/
def StoredBy (m : Maps) (insertions : List LeafEntry) : Prop :=
  ∀ k, m.leavesBeefyMmrMap[k]? = (insertions.find? fun x => x.1 = k).map Prod.snd

/-! ### The last entry -/

/-- Among keys with the same root the order is the order of the numbers. -/
private theorem le_of_compareLeafKey {root : H256} {n n' : UInt32}
    (h : compareLeafKey (root, n) (root, n') = .lt) : n ≤ n' := by
  simp only [compareLeafKey, compareLex, compareOn, Std.ReflCmp.compare_self, Ordering.then] at h
  exact UInt32.le_of_lt (Std.compare_eq_lt.1 h)

/-- The last entry for a header root has the greatest number. -/
private theorem getLast?_beefyEntries {m : Maps} {headerRoot : H256} {v : H256 × LeavesProof}
    (h : List.getLast? (Access.read m (.beefyEntries headerRoot)) = some v) :
    ∃ n, m.leavesBeefyMmrMap[(headerRoot, n)]? = some v ∧
      ∀ n', (headerRoot, n') ∈ m.leavesBeefyMmrMap → n' ≤ n := by
  have hsorted : (m.leavesBeefyMmrMap.toList.filter fun x => x.1.1 = headerRoot).Pairwise
      fun a b => compareLeafKey a.1 b.1 = .lt := Std.TreeMap.ordered_keys_toList.filter _
  rw [Access.read, List.getLast?_map, Option.map_eq_some_iff] at h
  obtain ⟨x, hlast, rfl⟩ := h
  have hx := List.mem_filter.1 (List.mem_of_getLast? hlast)
  obtain ⟨⟨root, n⟩, v⟩ := x
  obtain rfl : root = headerRoot := of_decide_eq_true hx.2
  refine ⟨n, Std.TreeMap.mem_toList_iff_getElem?_eq_some.1 hx.1, ?_⟩
  intro n' hn'
  obtain ⟨v', hv'⟩ := Option.isSome_iff_exists.1 (Std.TreeMap.mem_iff_isSome_getElem?.1 hn')
  have hmem : ((root, n'), v') ∈ m.leavesBeefyMmrMap.toList.filter fun x => x.1.1 = root :=
    List.mem_filter.2 ⟨Std.TreeMap.mem_toList_iff_getElem?_eq_some.2 hv', decide_eq_true rfl⟩
  -- every entry but the last comes before it
  obtain ⟨before, hbefore⟩ := List.getLast?_eq_some_iff.1 hlast
  rw [hbefore] at hsorted hmem
  rcases List.mem_append.1 hmem with hmem | hmem
  · exact le_of_compareLeafKey ((List.pairwise_append.1 hsorted).2.2 _ hmem _ (List.mem_singleton_self _))
  · cases List.mem_singleton.1 hmem
    exact UInt32.le_refl n

private theorem StoredBy.mem_iff {m : Maps} {insertions : List LeafEntry} (h : StoredBy m insertions)
    {k : H256 × UInt32} : k ∈ m.leavesBeefyMmrMap ↔ ∃ x ∈ insertions, x.1 = k := by
  rw [Std.TreeMap.mem_iff_isSome_getElem?, h k, Option.isSome_map, List.find?_isSome]
  simp only [decide_eq_true_eq]

/-- What the generator takes as stage 1 is the newest entry. -/
private theorem StoredBy.newest {m : Maps} {insertions : List LeafEntry} (h : StoredBy m insertions)
    {headerRoot : H256} {v : H256 × LeavesProof}
    (hv : List.getLast? (Access.read m (.beefyEntries headerRoot)) = some v) :
    ∃ n, Newest insertions headerRoot n v := by
  obtain ⟨n, hn, hgreatest⟩ := getLast?_beefyEntries hv
  rw [h, Option.map_eq_some_iff] at hn
  obtain ⟨x, hfind, rfl⟩ := hn
  have hkey : x.1 = (headerRoot, n) := by simpa using List.find?_some hfind
  refine ⟨n, ?_, ?_⟩
  · intro y hy hroot
    exact hgreatest y.1.2 (h.mem_iff.2 ⟨y, hy, by rw [← hroot]⟩)
  · rw [hfind, ← hkey]

/-- There is a last entry as soon as something was inserted with the header root. -/
private theorem StoredBy.exists_last {m : Maps} {insertions : List LeafEntry} (h : StoredBy m insertions)
    {x : LeafEntry} (hx : x ∈ insertions) : ∃ v, List.getLast? (Access.read m (.beefyEntries x.1.1)) = some v := by
  obtain ⟨v, hv⟩ := Option.isSome_iff_exists.1 (Std.TreeMap.mem_iff_isSome_getElem?.1 (h.mem_iff.2 ⟨x, hx, rfl⟩))
  have hmem : v ∈ Access.read m (.beefyEntries x.1.1) :=
    List.mem_map.2 ⟨(x.1, v), List.mem_filter.2 ⟨Std.TreeMap.mem_toList_iff_getElem?_eq_some.2 hv,
      decide_eq_true rfl⟩, rfl⟩
  exact ⟨_, List.getLast?_eq_some_getLast (List.ne_nil_of_mem hmem)⟩

/-! ### Runs of the relayer -/

/-- Stage 1 of a submitted proof and its BEEFY root are the two parts of the last entry found. -/
def EntryAsked (h : Hist Answer) : Query → Prop
  | .request (.signAndSubmit p root) => ∃ es proof, ⟨.tryLock (.beefyEntries p.stage2.root), some es⟩ ∈ h ∧
      es.getLast? = some (root, proof) ∧ decodeLeaves proof.leaves = some p.stage1.2 ∧
      decodeProof proof.proof = some p.stage1.1
  | _ => True

private theorem generateXcmpProof_entryAsked :
    Prog.wp (fun _ _ => True) EntryAsked [] generateXcmpProof (fun _ _ => True) := by
  simp only [generateXcmpProof, lookUpStages, removeAndSubmit, request, tryLock, orError, Prog.wp_bind, Prog.wp_query,
    Prog.wp_pure, Prog.onOk_ok, Prog.wp_ofOption, Prog.wp_check, Prog.onOk_error, EntryAsked, implies_true, and_true,
    true_and, forall_const]
  intro _ _ _ _ _ _ _ _ _ _ _ _ _ _ _ _ stage2 _ entries stage1 hstage1 leaves hleaves proof hproof _ _ _ _ _ _ _
  refine wp_submitXcmpProof ?_ fun _ => ⟨trivial, trivial⟩
  cases entries with
  | none => cases hstage1
  | some es => exact ⟨es, stage1.2, by simp, hstage1, hleaves, hproof⟩

def entrySpec : Machine.Spec TaskId Shared Block Answer Failure where
  inv _ := True
  loc _ _ _ _ := True
  known _ _ _ _ := True
  asked i _ h q := AskedBy i q ∧ (i = .generator → EntryAsked h q)
  post _ _ _ _ := True

theorem entrySpec_sound (env : Externals) : entrySpec.Sound (machine env) (fun _ _ => True) where
  body i b := by
    have hbody := body_askedBy_and env (j := .generator) (b := b) generateXcmpProof_entryAsked i
    exact Prog.wp_mono (fun _ _ _ => trivial) hbody
  start _ _ _ _ := trivial
  answer _ _ _ _ _ _ _ _ _ _ _ _ _ _ := ⟨trivial, trivial, trivial⟩
  other _ _ _ _ _ _ _ _ _ _ _ _ _ _ := trivial
  world _ _ _ := ⟨trivial, fun _ _ _ _ => trivial⟩

/-- The map holds what was inserted, and each list of entries that was found ends with what then was the newest one. -/
structure EntriesRecorded (m : Maps) (record : TaskId → Hist Answer) : Prop where
  stored : StoredBy m (leafInsertions (record .relay))
  found : ∀ headerRoot es v, ⟨.tryLock (.beefyEntries headerRoot), some es⟩ ∈ record .generator →
    es.getLast? = some v → ∃ past n, past <:+ record .relay ∧ Newest (leafInsertions past) headerRoot n v

variable {s s' : Shared} {record : TaskId → Hist Answer}

private theorem EntriesRecorded.cons_other (h : EntriesRecorded s.maps record)
    (hmap : s'.maps.leavesBeefyMmrMap = s.maps.leavesBeefyMmrMap) {x : Sigma Answer}
    (hinsertion : leafInsertion x = none)
    (hfound : ∀ headerRoot es, x ≠ ⟨.tryLock (.beefyEntries headerRoot), some es⟩) (i : TaskId) :
    EntriesRecorded s'.maps (Function.update record i (x :: record i)) := by
  refine ⟨?_, ?_⟩
  · have hsame : leafInsertions (Function.update record i (x :: record i) .relay) =
        leafInsertions (record .relay) := by
      by_cases hi : TaskId.relay = i
      · subst hi
        rw [Function.update_self, leafInsertions, List.filterMap_cons_none hinsertion]
        rfl
      · rw [Function.update_of_ne hi]
    intro k
    rw [hmap, hsame]
    exact h.stored k
  · intro headerRoot es v hmem hv
    rcases Machine.mem_update_cons.1 hmem with ⟨-, heq⟩ | hmem
    · exact absurd heq.symm (hfound headerRoot es)
    · obtain ⟨past, n, hpast, hnewest⟩ := h.found headerRoot es v hmem hv
      exact ⟨past, n, Machine.suffix_update_cons hpast, hnewest⟩

private theorem EntriesRecorded.insert (h : EntriesRecorded s.maps record) (headerRoot : H256) (n : UInt32)
    (beefyRoot : H256) (proof : LeavesProof) :
    EntriesRecorded (Access.write s.maps (.insertLeaf headerRoot n beefyRoot proof))
      (Function.update record .relay
        (⟨.tryLock (.insertLeaf headerRoot n beefyRoot proof), some ()⟩ :: record .relay)) := by
  refine ⟨?_, ?_⟩
  · have hcons : leafInsertions (⟨.tryLock (.insertLeaf headerRoot n beefyRoot proof), some ()⟩ :: record .relay) =
        ((headerRoot, n), (beefyRoot, proof)) :: leafInsertions (record .relay) := rfl
    intro k
    rw [Function.update_self, hcons, Access.write, Std.TreeMap.getElem?_insert]
    by_cases hk : (headerRoot, n) = k
    · subst hk
      rw [if_pos Std.ReflCmp.compare_self, List.find?_cons_of_pos (by simp)]
      rfl
    · rw [if_neg fun he => hk (Std.LawfulEqCmp.eq_of_compare he), List.find?_cons_of_neg (by simpa using hk)]
      exact h.stored k
  · intro headerRoot' es v hmem hv
    rcases Machine.mem_update_cons.1 hmem with ⟨hi, -⟩ | hmem
    · cases hi
    · obtain ⟨past, n, hpast, hnewest⟩ := h.found headerRoot' es v hmem hv
      exact ⟨past, n, Machine.suffix_update_cons hpast, hnewest⟩

private theorem EntriesRecorded.find (h : EntriesRecorded s.maps record) (headerRoot : H256) :
    EntriesRecorded s.maps (Function.update record .generator
      (⟨.tryLock (.beefyEntries headerRoot), some (Access.read s.maps (.beefyEntries headerRoot))⟩ ::
        record .generator)) := by
  refine ⟨h.stored, ?_⟩
  intro headerRoot' es v hmem hv
  rcases Machine.mem_update_cons.1 hmem with ⟨-, heq⟩ | hmem
  · cases heq
    obtain ⟨n, hnewest⟩ := h.stored.newest hv
    exact ⟨record .relay, n, List.suffix_rfl, hnewest⟩
  · exact h.found headerRoot' es v hmem hv

private theorem EntriesRecorded.answer (h : EntriesRecorded s.maps record) {i : TaskId} {q : Query} {a : Answer q}
    (hq : AskedBy i q) (hh : Handled s q a s') :
    EntriesRecorded s'.maps (Function.update record i (⟨q, a⟩ :: record i)) := by
  cases hh with
  | request r a => exact h.cons_other rfl rfl (by simp) i
  | busy x =>
    refine h.cons_other rfl ?_ (fun _ _ heq => by cases heq) i
    cases x <;> rfl
  | locked x =>
    cases x with
    | insertLeaf headerRoot n beefyRoot proof =>
      obtain rfl : TaskId.relay = i := hq
      exact h.insert headerRoot n beefyRoot proof
    | beefyEntries headerRoot =>
      obtain rfl : TaskId.generator = i := hq
      exact h.find headerRoot
    | _ =>
      refine h.cons_other ?_ ?_ ?_ i
      · rfl
      · rfl
      · intro _ _ heq
        cases heq

theorem Reachable.entriesRecorded {best : H256} {s : State} (h : Reachable (machine env).step (boot best) s) :
    EntriesRecorded s.shared.maps s.record := by
  refine (entrySpec_sound env).record_invariant (J := fun s r => EntriesRecorded s.maps r) trivial ?_ ?_ ?_ h
  · exact ⟨by simp [StoredBy, Maps.empty, leafInsertions], by simp⟩
  · intro i b h q a s s' record hq hh hrecorded
    exact hrecorded.answer hq.1 (handled_of_handle hh)
  · intro s best record hrecorded
    exact hrecorded

/-- In every reachable state, for every header root that was ever inserted, the last entry that a lookup finds is the
newest one; and whenever the relayer is about to submit a proof, its BEEFY root and its stage 1 are the two parts of one
entry, the last one that the call had found and the newest one at that time. -/
theorem stage1_newest (env : Externals) (best : H256) (s : State)
    (h : Reachable (machine env).step (boot best) s) :
    (∀ headerRoot, (∃ x ∈ leafInsertions (s.record .relay), x.1.1 = headerRoot) →
      ∃ n v, List.getLast? (Access.read s.shared.maps (.beefyEntries headerRoot)) = some v ∧
        Newest (leafInsertions (s.record .relay)) headerRoot n v) ∧
    ∀ p root, submitting s = some (p, root) →
      ∃ b hist k es past n proof, s.tasks .generator = .running b hist k ∧
        ⟨.tryLock (.beefyEntries p.stage2.root), some es⟩ ∈ hist ∧ es.getLast? = some (root, proof) ∧
        past <:+ s.record .relay ∧ Newest (leafInsertions past) p.stage2.root n (root, proof) ∧
        decodeLeaves proof.leaves = some p.stage1.2 ∧ decodeProof proof.proof = some p.stage1.1 := by
  have hrecorded := Reachable.entriesRecorded h
  refine ⟨?_, ?_⟩
  · rintro headerRoot ⟨x, hx, rfl⟩
    obtain ⟨v, hv⟩ := hrecorded.stored.exists_last hx
    obtain ⟨n, hnewest⟩ := hrecorded.stored.newest hv
    exact ⟨n, v, hv, hnewest⟩
  · intro p root hp
    have hs := (entrySpec_sound env).holds ⟨.empty, best⟩ trivial h
    obtain ⟨b, hist, k, hgen⟩ := submitting_eq_some hp
    obtain ⟨es, proof, hmem, hlast, hleaves, hproof⟩ := (hs.running .generator b hist _ hgen).1.1.2 rfl
    have hrecord : ⟨.tryLock (.beefyEntries p.stage2.root), some es⟩ ∈ s.record .generator := by
      rw [Machine.State.record, Machine.State.hists, hgen]
      simp only [Machine.Task.hists, List.singleton_append, List.flatten_cons]
      exact List.mem_append_left _ hmem
    obtain ⟨past, n, hpast, hnewest⟩ := hrecorded.found _ es _ hrecord hlast
    exact ⟨b, hist, _, es, past, n, proof, hgen, hmem, hlast, hpast, hnewest, hleaves, hproof⟩

/-- After `collected`, an older relay chain block with the same heads. -/
def reordered : State := relayer.perform (freeReply relayNode) collected .relay ⟨.repeatByte 0x40, 3⟩

theorem stage1_newest_reordered :
    (leafInsertions (reordered.record .relay)).map Prod.fst = [(relayLeaf.leafExtra, 3), (relayLeaf.leafExtra, 5)] ∧
      (∃ n v, List.getLast? (Access.read reordered.shared.maps (.beefyEntries relayLeaf.leafExtra)) = some v ∧
        Newest (leafInsertions (reordered.record .relay)) relayLeaf.leafExtra n v) ∧
      ∃ p root, submitting assembled = some (p, root) ∧
        ∃ past n proof, past <:+ assembled.record .relay ∧
          Newest (leafInsertions past) p.stage2.root n (root, proof) := by
  have hkeys : (leafInsertions (reordered.record .relay)).map Prod.fst =
      [(relayLeaf.leafExtra, 3), (relayLeaf.leafExtra, 5)] := by
    decide +kernel
  have hreachable : Reachable relayer.step (boot H256.zero) reordered :=
    reachable_collected.trans (reachable_perform _ _ collected_relay)
  refine ⟨hkeys, (stage1_newest (.documented xcmrRoot) H256.zero reordered hreachable).1 _ ?_, ?_⟩
  · obtain ⟨x, l, hl, hx, -⟩ := List.map_eq_cons_iff.1 hkeys
    exact ⟨x, by rw [hl]; exact List.mem_cons_self, by rw [hx]⟩
  · obtain ⟨_, _, _, _, past, n, proof, -, -, -, hpast, hnewest, -, -⟩ :=
      (stage1_newest (.documented xcmrRoot) H256.zero assembled reachable_assembled).2 _ _ submitting_assembled
    exact ⟨_, _, submitting_assembled, past, n, proof, hpast, hnewest⟩

end XcmpPrototype.Relayer
