import XcmpPrototype.Channels

/-!
# The BEEFY roots that an instance has seen

At every block an instance notes the root that the relay chain provides, or the zero digest when there is none: as a key
of `SeenBeefyRoots`, with the number of the block, and at the end of `SeenBeefyRootsOrder`.  No call touches either.  So
after a run both can be read off its blocks (`Seen`), and with them

* that the list has one entry for each block, the keys are the entries of the list, and a key has the number of the last
  block with that root;
* that nothing is ever forgotten, whatever `MaxBeefyRootsKept` says;
* that a root passes for a seen one without having been provided only if it is the zero digest of a block without root;
* that calls have no influence on the acceptance of proofs.
-/

open Scale

namespace XcmpPrototype

/-! ### Runs of an instance -/

inductive PalletEvent where
  | block (b : BlockStart)
  | call (origin : Origin) (call : Call)

def palletStep (env : Externals) (hashOf : Bytes → H256) (cfg : Config) (s : Storage) : PalletEvent → Storage
  | .block b => (leafData cfg hashOf (onInitialize s b.number b.getRoot) b.parent fun _ => b.messages).1
  | .call origin call => (dispatch env s origin call).1

/-- The storage after the events of a run, in this order. -/
def palletRun (env : Externals) (hashOf : Bytes → H256) (cfg : Config) (es : List PalletEvent) : Storage :=
  es.foldl (palletStep env hashOf cfg) .genesis

def blocks (es : List PalletEvent) : List BlockStart :=
  es.filterMap fun
    | .block b => some b
    | .call .. => none

theorem palletRun_append_singleton {env : Externals} {hashOf : Bytes → H256} {cfg : Config}
    (es : List PalletEvent) (e : PalletEvent) :
    palletRun env hashOf cfg (es ++ [e]) = palletStep env hashOf cfg (palletRun env hashOf cfg es) e := by
  simp only [palletRun, List.foldl_append, List.foldl_cons, List.foldl_nil]

/-- The instance is in a state that a run with this configuration reaches. -/
def Instance.RunsWith (env : Externals) (hashOf : Bytes → H256) (i : Instance) (cfg : Config) : Prop :=
  ∃ es, i = ⟨cfg, palletRun env hashOf cfg es⟩

private theorem Instance.RunsWith.step {env : Externals} {hashOf : Bytes → H256} {i : Instance} {cfg : Config}
    (h : i.RunsWith env hashOf cfg) (e : PalletEvent) :
    Instance.RunsWith env hashOf { i with storage := palletStep env hashOf i.config i.storage e } cfg := by
  obtain ⟨es, rfl⟩ := h
  exact ⟨es ++ [e], by rw [palletRun_append_singleton]⟩

/-- In every reachable state of the runtime both instances are in such a state. -/
theorem Reachable.runsWith {env : Externals} {hashOf : Bytes → H256} {st : RuntimeState}
    (h : Reachable (runtimeStep env hashOf) .genesis st) :
    st.msgStufferParaA.RunsWith env hashOf configParaA ∧ st.msgStufferParaB.RunsWith env hashOf configParaB := by
  refine h.invariant (I := fun st => st.msgStufferParaA.RunsWith env hashOf configParaA ∧
    st.msgStufferParaB.RunsWith env hashOf configParaB) ⟨⟨[], rfl⟩, ⟨[], rfl⟩⟩ ?_
  rintro st e st' ⟨ha, hb⟩ - hs
  cases e with
  | block b =>
    cases hs
    exact ⟨ha.step (.block b), hb.step (.block b)⟩
  | callParaA origin call =>
    cases hs
    exact ⟨ha.step (.call origin call), hb⟩
  | callParaB origin call =>
    cases hs
    exact ⟨ha, hb.step (.call origin call)⟩

/-- The root that a block notes. -/
def BlockStart.root (b : BlockStart) : H256 := b.getRoot.getD H256.zero

/-- The number of the last block at which a root was observed. -/
def lastNumber (bs : List BlockStart) (r : H256) : Option UInt32 :=
  (bs.reverse.find? fun b => b.root = r).map BlockStart.number

/-- The storage has seen exactly these blocks. -/
structure Seen (bs : List BlockStart) (s : Storage) : Prop where
  order : s.seenBeefyRootsOrder = bs.map BlockStart.root
  number : ∀ r : H256, s.seenBeefyRoots[r]? = lastNumber bs r
  size : s.seenBeefyRoots.size ≤ bs.length

variable {env : Externals} {hashOf : Bytes → H256} {cfg : Config} {bs : List BlockStart} {s : Storage}

private theorem Seen.onInitialize (h : Seen bs s) (b : BlockStart) :
    Seen (bs ++ [b]) (onInitialize s b.number b.getRoot) := by
  refine ⟨?_, ?_, ?_⟩
  · simp only [XcmpPrototype.onInitialize, h.order, List.map_append, List.map_singleton, BlockStart.root]
  · intro r
    simp only [XcmpPrototype.onInitialize, lastNumber, List.reverse_append, List.reverse_singleton,
      List.singleton_append, List.find?_cons]
    rw [Std.TreeMap.getElem?_insert]
    by_cases hr : b.root = r
    · have hcmp : compare (b.getRoot.getD H256.zero) r = .eq := by
        rw [← hr]
        exact Std.ReflCmp.compare_self
      simp [hr, hcmp]
    · have hcmp : compare (b.getRoot.getD H256.zero) r ≠ .eq := fun he => hr (Std.LawfulEqOrd.eq_of_compare he)
      simp only [hr, hcmp, decide_false, ↓reduceIte]
      exact h.number r
  · have hinsert : (s.seenBeefyRoots.insert b.root b.number).size ≤ s.seenBeefyRoots.size + 1 :=
      Std.TreeMap.size_insert_le
    have hsize := h.size
    rw [List.length_append, List.length_singleton]
    exact hinsert.trans (by omega)

private theorem Seen.congr {s' : Storage} (h : Seen bs s) (hroots : s'.seenBeefyRoots = s.seenBeefyRoots)
    (horder : s'.seenBeefyRootsOrder = s.seenBeefyRootsOrder) : Seen bs s' :=
  ⟨by rw [horder, h.order], by rw [hroots]; exact h.number, by rw [hroots]; exact h.size⟩

private theorem blocks_append_singleton (es : List PalletEvent) (e : PalletEvent) :
    blocks (es ++ [e]) = match e with
      | .block b => blocks es ++ [b]
      | .call .. => blocks es := by
  cases e <;> simp [blocks]

theorem seen_palletRun (env : Externals) (hashOf : Bytes → H256) (cfg : Config) (es : List PalletEvent) :
    Seen (blocks es) (palletRun env hashOf cfg es) := by
  induction es using List.reverseRecOn with
  | nil => exact ⟨rfl, fun r => by simp [palletRun, Storage.genesis, blocks, lastNumber], Nat.zero_le _⟩
  | append_singleton es e ih =>
    rw [palletRun_append_singleton, blocks_append_singleton]
    cases e with
    | block b => exact (ih.onInitialize b).congr rfl rfl
    | call origin call =>
      obtain ⟨hroots, horder⟩ := dispatch_seenBeefyRoots env (palletRun env hashOf cfg es) origin call
      exact ih.congr hroots horder

theorem Seen.contains_iff (h : Seen bs s) (r : H256) :
    s.seenBeefyRoots.contains r = true ↔ ∃ b ∈ bs, b.root = r := by
  rw [Std.TreeMap.contains_eq_isSome_getElem?, h.number, lastNumber, Option.isSome_map, List.find?_isSome]
  simp

/-- Both stores say the same after every run: the list has the root of each block, the keys are the entries of the list,
and a key has the number of the last block at which it was observed. -/
theorem seenBeefyRoots_agree (env : Externals) (hashOf : Bytes → H256) (cfg : Config) (es : List PalletEvent) :
    (palletRun env hashOf cfg es).seenBeefyRootsOrder = (blocks es).map (fun b => b.getRoot.getD H256.zero) ∧
      (∀ r, (palletRun env hashOf cfg es).seenBeefyRoots.contains r = true ↔
        r ∈ (palletRun env hashOf cfg es).seenBeefyRootsOrder) ∧
      ∀ r : H256, (palletRun env hashOf cfg es).seenBeefyRoots[r]? = lastNumber (blocks es) r := by
  have h := seen_palletRun env hashOf cfg es
  refine ⟨h.order, fun r => ?_, h.number⟩
  rw [h.contains_iff, h.order, List.mem_map]

/-! ### Nothing is forgotten -/

/-- Through a whole run both stores stay within `MaxBeefyRootsKept` exactly when the run has at most that many
blocks. -/
theorem seenBeefyRoots_bounded_iff (env : Externals) (hashOf : Bytes → H256) (cfg : Config) (es : List PalletEvent) :
    (∀ t, t <+: es → (palletRun env hashOf cfg t).seenBeefyRootsOrder.length ≤ cfg.maxBeefyRootsKept.toNat ∧
      (palletRun env hashOf cfg t).seenBeefyRoots.size ≤ cfg.maxBeefyRootsKept.toNat) ↔
      (blocks es).length ≤ cfg.maxBeefyRootsKept.toNat := by
  constructor
  · intro h
    have hlen := (h es (List.prefix_refl es)).1
    rwa [(seen_palletRun env hashOf cfg es).order, List.length_map] at hlen
  · intro h t ht
    have hseen := seen_palletRun env hashOf cfg t
    have hle : (blocks t).length ≤ (blocks es).length := (ht.filterMap _).length_le
    have hsize := hseen.size
    rw [hseen.order, List.length_map]
    exact ⟨by omega, by omega⟩

/-- A block without a root. -/
def emptyBlock (n : UInt32) : BlockStart := ⟨n, none, (n - 1, H256.zero), fun _ => ⟨[], Nat.two_pow_pos 32⟩⟩

/-- After one block more than the runtime keeps roots, all of them are still in the list. -/
theorem seenBeefyRootsOrder_overflow :
    (palletRun (.documented xcmrRoot) keccak256 configParaA
      ((List.range 64001).map fun n => .block (emptyBlock (UInt32.ofNat (n + 1))))).seenBeefyRootsOrder.length >
        configParaA.maxBeefyRootsKept.toNat := by
  have hblocks : ∀ l : List ℕ, blocks (l.map fun n => .block (emptyBlock (UInt32.ofNat (n + 1)))) =
      l.map fun n => emptyBlock (UInt32.ofNat (n + 1)) := by
    intro l
    simp only [blocks, List.filterMap_map, Function.comp_def, List.filterMap_eq_map']
  rw [(seen_palletRun _ _ _ _).order, hblocks, List.length_map, List.length_map, List.length_range]
  decide

/-! ### Which roots are trusted -/

/-- A signed call fails for an unknown root exactly when that root is no key. -/
theorem submitXcmpProof_ne_neverSeen_iff {who : Bytes} {p : XcmpProof} {r : H256} :
    submitXcmpProof env s (.signed who) p r ≠ .error (.error .xcmpBeefyRootTargetedNeverSeen) ↔
      s.seenBeefyRoots.contains r = true := by
  cases hr : s.seenBeefyRoots.contains r with
  | false =>
    simp [submitXcmpProof, hr, ensureSigned, ensure, bind, Except.bind]
  | true =>
    simp only [iff_true]
    intro h
    simp only [submitXcmpProof, extractXcmpChannelRoot, hr, bind_eq_error, ensureSigned_eq_error, ensure_eq_error,
      okOr_eq_error, first_eq_error, tryInto_eq_error, reduceCtorEq, Failure.error.injEq, Bool.true_eq_false,
      false_and, and_false, exists_false, or_self] at h

/-- In every run: all roots that get past the check were provided, exactly when every block had a root or the zero
digest was provided too. -/
theorem trusted_roots_provided_iff (env : Externals) (hashOf : Bytes → H256) (cfg : Config) (es : List PalletEvent)
    (who : Bytes) (p : XcmpProof) :
    (∀ r, submitXcmpProof env (palletRun env hashOf cfg es) (.signed who) p r ≠
        .error (.error .xcmpBeefyRootTargetedNeverSeen) → ∃ b ∈ blocks es, b.getRoot = some r) ↔
      (∀ b ∈ blocks es, b.getRoot ≠ none) ∨ ∃ b ∈ blocks es, b.getRoot = some H256.zero := by
  simp only [submitXcmpProof_ne_neverSeen_iff, (seen_palletRun env hashOf cfg es).contains_iff]
  constructor
  · intro h
    by_cases hnone : ∀ b ∈ blocks es, b.getRoot ≠ none
    · exact Or.inl hnone
    · push Not at hnone
      obtain ⟨b, hb, hroot⟩ := hnone
      exact Or.inr (h H256.zero ⟨b, hb, by rw [BlockStart.root, hroot]; rfl⟩)
  · rintro h r ⟨b, hb, rfl⟩
    cases hroot : b.getRoot with
    | some r => exact ⟨b, hb, by rw [hroot, BlockStart.root, hroot]; rfl⟩
    | none =>
      have hzero : b.root = H256.zero := by rw [BlockStart.root, hroot]; rfl
      rw [hzero]
      exact h.resolve_left fun h' => h' b hb hroot

/-- A block without a root makes the zero digest a trusted one. -/
theorem trusted_root_not_provided :
    submitXcmpProof (.documented xcmrRoot)
        (palletRun (.documented xcmrRoot) keccak256 configParaA [.block (emptyBlock 1)]) (.signed [])
        SoleProof.honest.proof H256.zero ≠ .error (.error .xcmpBeefyRootTargetedNeverSeen) ∧
      ¬ ∃ b ∈ blocks [.block (emptyBlock 1)], b.getRoot = some H256.zero := by
  refine ⟨submitXcmpProof_ne_neverSeen_iff.2 ?_, ?_⟩
  · exact ((seen_palletRun _ _ _ _).contains_iff _).2 ⟨emptyBlock 1, List.mem_singleton.2 rfl, rfl⟩
  · rintro ⟨b, hb, hroot⟩
    obtain rfl := List.mem_singleton.1 hb
    cases hroot

/-! ### Calls and acceptance -/

/-- The storage after calls of any accounts. -/
def dispatchAll (env : Externals) (s : Storage) (calls : List (Origin × Call)) : Storage :=
  calls.foldl (fun s c => (dispatch env s c.1 c.2).1) s

private theorem dispatchAll_seenBeefyRoots (calls : List (Origin × Call)) :
    (dispatchAll env s calls).seenBeefyRoots = s.seenBeefyRoots := by
  induction calls generalizing s with
  | nil => rfl
  | cons c calls ih => exact ih.trans (dispatch_seenBeefyRoots env s c.1 c.2).1

/-- No sequence of calls changes the result of a signed `submitXcmpProof`; more generally, the result depends on the
storage only through the presence of the targeted root. -/
theorem submitXcmpProof_after_calls (env : Externals) (s : Storage) (p : XcmpProof) (beefyRootTargeted : H256) :
    (∀ (calls : List (Origin × Call)) (who : Bytes),
      submitXcmpProof env (dispatchAll env s calls) (.signed who) p beefyRootTargeted =
        submitXcmpProof env s (.signed who) p beefyRootTargeted) ∧
      ∀ (s' : Storage) (origin : Origin),
        (s'.seenBeefyRoots.contains beefyRootTargeted = s.seenBeefyRoots.contains beefyRootTargeted) →
        submitXcmpProof env s' origin p beefyRootTargeted = submitXcmpProof env s origin p beefyRootTargeted := by
  refine ⟨fun calls who => ?_, fun s' origin h => submitXcmpProof_congr env origin p h⟩
  refine submitXcmpProof_congr env _ p ?_
  rw [dispatchAll_seenBeefyRoots]

end XcmpPrototype
