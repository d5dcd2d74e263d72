import XcmpPrototype.SoleProof

/-!
# Where a call can panic

`submitXcmpProof` has five operations that may fail without an error of the pallet: the index into the leaves of stage 1
and the conversions of two counts and two indices to 32 bits.  Each of them is only guarded by what the checks before it
reject.  The check on the number of leaves rejects two leaves but not none, and no check looks at the size of a count.
So the operations panic on exactly the inputs that pass all checks before them (`submitXcmpProof_ne_panic_iff`).
-/

open Scale

namespace XcmpPrototype

variable {env : Externals} {s : Storage} {origin : Origin} {p : XcmpProof} {beefyRootTargeted : H256}

/-! ### The checks before each operation -/

/-- The leaves of stage 1 are indexed. -/
structure ReachesLeaf (env : Externals) (s : Storage) (origin : Origin) (p : XcmpProof) (beefyRootTargeted : H256) :
    Prop where
  signed : ∃ who, origin = .signed who
  seen : s.seenBeefyRoots.contains beefyRootTargeted = true
  verifies : env.verifyLeavesProof beefyRootTargeted p.stage1.2 p.stage1.1 = true
  atMostOne : p.stage1.2.length ≤ 1

/-- The count and the index of stage 2 are converted. -/
structure ReachesStage2 (env : Externals) (s : Storage) (origin : Origin) (p : XcmpProof) (beefyRootTargeted : H256) :
    Prop extends ReachesLeaf env s origin p beefyRootTargeted where
  leaf : ∃ blob leaf rest, p.stage1.2 = [blob] ∧ BeefyMmrLeaf.codec.decode blob = some (leaf, rest) ∧
    leaf.leafExtra = p.stage2.root

/-- The count and the index of stage 3 are converted. -/
structure ReachesStage3 (env : Externals) (s : Storage) (origin : Origin) (p : XcmpProof) (beefyRootTargeted : H256) :
    Prop extends ReachesStage2 env s origin p beefyRootTargeted where
  count2 : p.stage2.numLeaves.toNat < 2 ^ 32
  index2 : p.stage2.leafIndex.toNat < 2 ^ 32
  stage2 : env.verifyProof p.stage2.root p.stage2.proof p.stage2.numLeaves.toUInt32 p.stage2.leafIndex.toUInt32
    (ParaLeaf.codec.encode p.stage2.leaf) = true
  extracted : extractXcmpChannelRoot env p.stage2.leaf = .ok p.stage3.root

/-- The extraction of the channel root ends in an error of the pallet. -/
private theorem extractXcmpChannelRoot_ne_panic (leaf : ParaLeaf) :
    extractXcmpChannelRoot env leaf ≠ .error .panic := by
  simp [extractXcmpChannelRoot, bind_eq_error]

/-- A call panics exactly at one of the five operations. -/
theorem submitXcmpProof_eq_panic :
    submitXcmpProof env s origin p beefyRootTargeted = .error .panic ↔
      (ReachesLeaf env s origin p beefyRootTargeted ∧ p.stage1.2 = []) ∨
      (ReachesStage2 env s origin p beefyRootTargeted ∧
        (2 ^ 32 ≤ p.stage2.numLeaves.toNat ∨ 2 ^ 32 ≤ p.stage2.leafIndex.toNat)) ∨
      (ReachesStage3 env s origin p beefyRootTargeted ∧
        (2 ^ 32 ≤ p.stage3.numLeaves.toNat ∨ 2 ^ 32 ≤ p.stage3.leafIndex.toNat)) := by
  simp only [submitXcmpProof, bind_eq_error, ensureSigned_eq_error, ensureSigned_eq_ok, ensure_eq_error,
    ensure_eq_ok, first_eq_error, first_eq_ok, okOr_eq_error, okOr_eq_ok, tryInto_eq_error, tryInto_eq_ok,
    extractXcmpChannelRoot_ne_panic, reduceCtorEq, and_false, false_or, and_true, exists_const, or_false,
    decide_eq_true_eq, not_lt]
  constructor
  · rintro ⟨hs, hseen, h1, hlen, hnil | ⟨blob, ⟨t, ht⟩, ⟨leaf, rest⟩, hd, he, h⟩⟩
    · exact .inl ⟨⟨hs, hseen, h1, hlen⟩, hnil⟩
    · have ht' : t = [] := by
        rw [ht, List.length_cons] at hlen
        exact List.eq_nil_of_length_eq_zero (by omega)
      have reach2 : ReachesStage2 env s origin p beefyRootTargeted :=
        ⟨⟨hs, hseen, h1, hlen⟩, blob, leaf, rest, by rw [ht, ht'], hd, he⟩
      rcases h with hn | ⟨_, ⟨hn, rfl⟩, hi | ⟨_, ⟨hi, rfl⟩, h2, _, hx, rfl, h⟩⟩
      · exact .inr (.inl ⟨reach2, .inl hn⟩)
      · exact .inr (.inl ⟨reach2, .inr hi⟩)
      · refine .inr (.inr ⟨⟨reach2, hn, hi, h2, hx⟩, ?_⟩)
        rcases h with hn | ⟨_, -, hi⟩
        · exact .inl hn
        · exact .inr hi
  · -- an operation that is reached passes all checks before it, whichever count or index is too large
    rintro (⟨h, hnil⟩ | ⟨h, hbig⟩ | ⟨h, hbig⟩)
    · exact ⟨h.signed, h.seen, h.verifies, h.atMostOne, .inl hnil⟩
    · obtain ⟨blob, leaf, rest, hl, hd, he⟩ := h.leaf
      refine ⟨h.signed, h.seen, h.verifies, h.atMostOne, .inr ⟨blob, ⟨[], hl⟩, (leaf, rest), hd, he, ?_⟩⟩
      by_cases hn : 2 ^ 32 ≤ p.stage2.numLeaves.toNat
      · exact .inl hn
      · exact .inr ⟨_, ⟨not_le.1 hn, rfl⟩, .inl (hbig.resolve_left hn)⟩
    · obtain ⟨blob, leaf, rest, hl, hd, he⟩ := h.leaf
      refine ⟨h.signed, h.seen, h.verifies, h.atMostOne, .inr ⟨blob, ⟨[], hl⟩, (leaf, rest), hd, he, .inr
        ⟨_, ⟨h.count2, rfl⟩, .inr ⟨_, ⟨h.index2, rfl⟩, h.stage2, _, h.extracted, rfl, ?_⟩⟩⟩⟩
      by_cases hn : 2 ^ 32 ≤ p.stage3.numLeaves.toNat
      · exact .inl hn
      · exact .inr ⟨_, ⟨not_le.1 hn, rfl⟩, hbig.resolve_left hn⟩

/-- No call panics exactly when an index that is reached has a leaf and a conversion that is reached has a small
value. -/
theorem submitXcmpProof_ne_panic_iff (env : Externals) (s : Storage) (origin : Origin) (p : XcmpProof)
    (beefyRootTargeted : H256) :
    submitXcmpProof env s origin p beefyRootTargeted ≠ .error .panic ↔
      (ReachesLeaf env s origin p beefyRootTargeted → p.stage1.2 ≠ []) ∧
      (ReachesStage2 env s origin p beefyRootTargeted →
        p.stage2.numLeaves.toNat < 2 ^ 32 ∧ p.stage2.leafIndex.toNat < 2 ^ 32) ∧
      (ReachesStage3 env s origin p beefyRootTargeted →
        p.stage3.numLeaves.toNat < 2 ^ 32 ∧ p.stage3.leafIndex.toNat < 2 ^ 32) := by
  rw [ne_eq, submitXcmpProof_eq_panic]
  simp only [not_or, not_and, not_le, ne_eq]

/-- The smallest proof without its stage-1 leaf, the root in its place among the items. -/
def SoleProof.leafless (q : SoleProof) : XcmpProof := { q.proof with stage1 := (⟨[], 1, [q.beefyRoot]⟩, []) }

/-- The smallest proof with a count of stage 2 that does not fit into 32 bits. -/
def SoleProof.overcounted (q : SoleProof) : XcmpProof :=
  { q.proof with stage2 := { q.proof.stage2 with numLeaves := 2 ^ 32 } }

/-- Both reach a panic from a storage that has seen the targeted root. -/
theorem submitXcmpProof_panics :
    submitXcmpProof (.documented xcmrRoot) SoleProof.honest.seenStorage (.signed []) SoleProof.honest.leafless
        SoleProof.honest.beefyRoot = .error .panic ∧
      submitXcmpProof (.documented xcmrRoot) SoleProof.honest.seenStorage (.signed []) SoleProof.honest.overcounted
        SoleProof.honest.beefyRoot = .error .panic := by
  obtain ⟨blob, leaf, rest, h⟩ := submitXcmpProof_eq_ok.1 SoleProof.honest_accepted
  constructor
  · refine submitXcmpProof_eq_panic.2 (.inl ⟨⟨h.signed, h.seen, ?_, Nat.zero_le 1⟩, rfl⟩)
    exact Mmr.verifyLeavesProof_nil keccak SoleProof.honest.beefyRoot
  · have hverifies := h.stage1
    rw [← h.leaves] at hverifies
    have hlen : SoleProof.honest.proof.stage1.2.length ≤ 1 := by rw [h.leaves]; simp
    refine submitXcmpProof_eq_panic.2 (.inr (.inl ⟨⟨⟨h.signed, h.seen, hverifies, hlen⟩, ?_⟩, .inl ?_⟩))
    · exact ⟨blob, leaf, rest, h.leaves, h.decodes, h.leafExtra⟩
    · exact show 2 ^ 32 ≤ (2 ^ 32 : UInt64).toNat by decide

end XcmpPrototype
