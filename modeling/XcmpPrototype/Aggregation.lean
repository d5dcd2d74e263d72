import XcmpPrototype.Commitments

/-!
# The loop that aggregates messages

The messages of a leaf are the pages of one recipient from index `0` up to the first missing index, after a few fixed
bytes.  So they depend on nothing else in the store (`getXcmpMessages_eq`): not on the block hash, not on pages of other
recipients, and not on pages behind the gap.

A missing index is also the only way out of the loop.  Its counter ranges over all indices, so a store with a page at
every index keeps it going around, or stops a build that checks for overflow (`aggregation_ends_iff`).
-/

open Scale

namespace XcmpPrototype

/-! ### The first missing index -/

/-- `k` is the least index without a page. -/
structure LeastMissing (pages : UInt16 → Option Bytes) (k : UInt16) : Prop where
  none : pages k = none
  isSome : ∀ i < k, (pages i).isSome

variable {pages pages' : UInt16 → Option Bytes} {k : UInt16}

private theorem LeastMissing.isSome_ofNat (h : LeastMissing pages k) {j : ℕ} (hj : j < k.toNat) :
    (pages (UInt16.ofNat j)).isSome := by
  have hk := k.toNat_lt
  apply h.isSome
  rw [UInt16.lt_iff_toNat_lt, UInt16.toNat_ofNat_of_lt' (show j < 2 ^ 16 by omega)]
  exact hj

private theorem LeastMissing.none_ofNat (h : LeastMissing pages k) : pages (UInt16.ofNat k.toNat) = Option.none := by
  rw [UInt16.ofNat_toNat]
  exact h.none

private theorem exists_leastMissing {i : UInt16} (h : pages i = none) : ∃ k, LeastMissing pages k := by
  have hex : ∃ n, pages (UInt16.ofNat n) = none := ⟨i.toNat, by rwa [UInt16.ofNat_toNat]⟩
  have hle : Nat.find hex ≤ i.toNat := Nat.find_min' hex (by rwa [UInt16.ofNat_toNat])
  have hi := i.toNat_lt
  refine ⟨UInt16.ofNat (Nat.find hex), Nat.find_spec hex, ?_⟩
  intro j hj
  rw [UInt16.lt_iff_toNat_lt, UInt16.toNat_ofNat_of_lt' (show Nat.find hex < 2 ^ 16 by omega)] at hj
  have hmin := Nat.find_min hex hj
  rw [UInt16.ofNat_toNat] at hmin
  exact Option.isSome_iff_ne_none.2 hmin

/-- The loop collects exactly the pages before the first missing index. -/
private theorem LeastMissing.aggregate_eq_some (h : LeastMissing pages k) (msgBuffer : Bytes) :
    aggregate pages 65537 0 msgBuffer = some (msgBuffer ++ (pagesBetween pages 0 k.toNat).flatten) := by
  have hk := k.toNat_lt
  exact aggregate_eq pages (n := 65537) (fun j hj => h.isSome_ofNat hj) h.none_ofNat (Nat.zero_le _) (by omega)
    msgBuffer

private theorem LeastMissing.congr (h : LeastMissing pages k) (heq : ∀ i ≤ k, pages' i = pages i) :
    LeastMissing pages' k := by
  refine ⟨?_, ?_⟩
  · rw [heq k (UInt16.le_refl k)]
    exact h.none
  · intro i hi
    rw [heq i (UInt16.le_of_lt hi)]
    exact h.isSome i hi

private theorem pagesBetween_congr (heq : ∀ i ≤ k, pages' i = pages i) :
    pagesBetween pages' 0 k.toNat = pagesBetween pages 0 k.toNat := by
  have hk := k.toNat_lt
  unfold pagesBetween
  apply List.filterMap_congr
  intro j hj
  have hlt : j < k.toNat := by
    have := (List.mem_range'_1.1 hj).2
    omega
  apply heq
  rw [UInt16.le_iff_toNat_le, UInt16.toNat_ofNat_of_lt' (show j < 2 ^ 16 by omega)]
  omega

/-- The loop does not see pages behind the first missing index. -/
private theorem aggregate_congr (h : LeastMissing pages k) (heq : ∀ i ≤ k, pages' i = pages i) (msgBuffer : Bytes) :
    aggregate pages' 65537 0 msgBuffer = aggregate pages 65537 0 msgBuffer := by
  rw [h.aggregate_eq_some, (h.congr heq).aggregate_eq_some, pagesBetween_congr heq]

/-! ### Messages and leaves -/

/-- `get_xcmp_messages` of the mock runtime, which has no fixed first bytes. -/
def getXcmpMessagesMock (q : OutboundQueue) (_blockHash : H256) (paraId : ParaId) : Option Bytes :=
  aggregate (q paraId).pages 65537 0 []

/-- `leaf_data` with the messages of a provider.  There is no leaf when the provider does not return or its result is
too long for a vector. -/
def leafDataOf (cfg : Config) (hashOf : Bytes → H256) (getMessages : H256 → ParaId → Option Bytes) (s : Storage)
    (parentNumberAndHash : UInt32 × H256) : Option (Storage × MmrLeaf) :=
  match getMessages parentNumberAndHash.2 cfg.paraIdentifier with
  | none => none
  | some msgBuffer =>
    if hlen : msgBuffer.length < 2 ^ 32 then
      some (leafData cfg hashOf s parentNumberAndHash fun _ _ => ⟨msgBuffer, hlen⟩)
    else none

private theorem leafDataOf_congr {cfg : Config} {getMessages getMessages' : H256 → ParaId → Option Bytes}
    (h : ∀ blockHash, getMessages' blockHash cfg.paraIdentifier = getMessages blockHash cfg.paraIdentifier)
    (hashOf : Bytes → H256) (s : Storage) (parentNumberAndHash : UInt32 × H256) :
    leafDataOf cfg hashOf getMessages' s parentNumberAndHash =
      leafDataOf cfg hashOf getMessages s parentNumberAndHash := by
  simp only [leafDataOf, h]

/-- Pages of other recipients do not enter a leaf. -/
private theorem leafDataOf_update {cfg : Config} {p : ParaId} (hp : cfg.paraIdentifier ≠ p) (q : OutboundQueue)
    (c : OutboundChannel) (hashOf : Bytes → H256) (s : Storage) (parentNumberAndHash : UInt32 × H256) :
    leafDataOf cfg hashOf (getXcmpMessages (Function.update q p c)) s parentNumberAndHash =
      leafDataOf cfg hashOf (getXcmpMessages q) s parentNumberAndHash := by
  apply leafDataOf_congr
  intro blockHash
  simp only [getXcmpMessages, Function.update_of_ne hp]

/-- With `k` the least index missing for `p`, the messages for `p` are the pages before `k` behind the fixed bytes, for
every block hash; and a store that agrees with this one on the pages of `p` up to `k` gives the same messages.  So the
leaf of either channel does not change with the pages of the other. -/
theorem getXcmpMessages_eq (q : OutboundQueue) (p : ParaId) (k : UInt16) (hk : LeastMissing (q p).pages k) :
    (∀ blockHash,
      getXcmpMessages q blockHash p = some ([1, 2, 3] ++ (pagesBetween (q p).pages 0 k.toNat).flatten) ∧
      getXcmpMessagesMock q blockHash p = some (pagesBetween (q p).pages 0 k.toNat).flatten) ∧
    (∀ q' : OutboundQueue, (∀ i ≤ k, (q' p).pages i = (q p).pages i) → ∀ blockHash blockHash',
      getXcmpMessages q' blockHash' p = getXcmpMessages q blockHash p ∧
      getXcmpMessagesMock q' blockHash' p = getXcmpMessagesMock q blockHash p) ∧
    ∀ (c : OutboundChannel) (hashOf : Bytes → H256) (s : Storage) (parentNumberAndHash : UInt32 × H256),
      leafDataOf configParaA hashOf (getXcmpMessages (Function.update q configParaB.paraIdentifier c)) s
          parentNumberAndHash = leafDataOf configParaA hashOf (getXcmpMessages q) s parentNumberAndHash ∧
      leafDataOf configParaB hashOf (getXcmpMessages (Function.update q configParaA.paraIdentifier c)) s
          parentNumberAndHash = leafDataOf configParaB hashOf (getXcmpMessages q) s parentNumberAndHash := by
  refine ⟨?_, ?_, ?_⟩
  · intro blockHash
    exact ⟨hk.aggregate_eq_some [1, 2, 3], hk.aggregate_eq_some []⟩
  · intro q' heq blockHash blockHash'
    exact ⟨aggregate_congr hk heq [1, 2, 3], aggregate_congr hk heq []⟩
  · intro c hashOf s parentNumberAndHash
    exact ⟨leafDataOf_update (by decide) q c hashOf s parentNumberAndHash,
      leafDataOf_update (by decide) q c hashOf s parentNumberAndHash⟩

/-- Two pages for each recipient, and a third one behind a gap. -/
def gapQueue : OutboundQueue := fun _ =>
  ⟨fun i => if i = 0 then some [7] else if i = 1 then some [8] else if i = 3 then some [9] else none, 0, 4⟩

theorem leastMissing_gapQueue : LeastMissing (gapQueue 1).pages 2 := by
  refine ⟨rfl, ?_⟩
  intro i hi
  have hlt : i.toNat < 2 := UInt16.lt_iff_toNat_lt.1 hi
  have hcases : i = 0 ∨ i = 1 := by
    rw [← UInt16.toNat_inj, ← UInt16.toNat_inj, UInt16.toNat_zero, UInt16.toNat_one]
    omega
  rcases hcases with rfl | rfl
  · rfl
  · rfl

theorem getXcmpMessages_eq_gapQueue :
    LeastMissing (gapQueue 1).pages 2 ∧ getXcmpMessages gapQueue H256.zero 1 = some [1, 2, 3, 7, 8] ∧
      getXcmpMessagesMock gapQueue H256.zero 1 = some [7, 8] := by
  obtain ⟨h, hmock⟩ := (getXcmpMessages_eq gapQueue 1 2 leastMissing_gapQueue).1 H256.zero
  exact ⟨leastMissing_gapQueue, h, hmock⟩

/-! ### Whether the loop ends -/

/-- How a build that checks for overflow leaves a loop by force. -/
inductive Overflow where
  | addOverflow
  deriving DecidableEq

/-- The loop of a build in which `counter += 1` panics on overflow. -/
def aggregateChecked (pages : UInt16 → Option Bytes) : ℕ → UInt16 → Bytes → Option (Except Overflow Bytes)
  | 0, _, _ => none
  | n + 1, counter, msgBuffer =>
    match pages counter with
    | some buffer =>
      if counter = 65535 then some (.error .addOverflow)
      else aggregateChecked pages n (counter + 1) (msgBuffer ++ buffer)
    | none => some (.ok msgBuffer)

/-- The loop ends, no counter that is increased is the last one, and the loop of a checked build ends without a
panic. -/
structure AggregationEnds (pages : UInt16 → Option Bytes) (msgBuffer : Bytes) : Prop where
  release : ∃ n b, aggregate pages n 0 msgBuffer = some b
  counters : ∀ n, ∀ x ∈ pagesRead pages UInt16.toNat n 0, x.1 + 1 < 2 ^ 16
  checked : ∃ n b, aggregateChecked pages n 0 msgBuffer = some (.ok b)

private theorem LeastMissing.lt_of_isSome (h : LeastMissing pages k) {i : UInt16} (hle : i.toNat ≤ k.toNat)
    (hi : (pages i).isSome) : i.toNat < k.toNat := by
  refine lt_of_le_of_ne hle ?_
  intro heq
  rw [UInt16.toNat_inj.1 heq, h.none] at hi
  cases hi

private theorem ne_last_of_lt {i : UInt16} {n : ℕ} (h : i.toNat < n) (hn : n < 2 ^ 16) : i ≠ 65535 := by
  rintro rfl
  have hlast : (65535 : UInt16).toNat = 65535 := rfl
  omega

/-- Below the first missing index both builds do the same. -/
private theorem LeastMissing.aggregateChecked_eq (h : LeastMissing pages k) {n : ℕ} {i : UInt16}
    (hi : i.toNat ≤ k.toNat) (msgBuffer : Bytes) :
    aggregateChecked pages n i msgBuffer = (aggregate pages n i msgBuffer).map Except.ok := by
  induction n generalizing i msgBuffer with
  | zero => rfl
  | succ n ih =>
    cases hbuffer : pages i with
    | none => simp only [aggregateChecked, aggregate, hbuffer, Option.map_some]
    | some buffer =>
      have hlt := h.lt_of_isSome hi (by rw [hbuffer]; rfl)
      have hne := ne_last_of_lt hlt k.toNat_lt
      have hsucc := OutboundChannel.toNat_succ hne
      simp only [aggregateChecked, aggregate, hbuffer, hne, ↓reduceIte]
      exact ih (by omega) _

private theorem LeastMissing.pagesRead_lt (h : LeastMissing pages k) {n : ℕ} {i : UInt16} (hi : i.toNat ≤ k.toNat)
    {x : ℕ × Bytes} (hx : x ∈ pagesRead pages UInt16.toNat n i) : x.1 < k.toNat := by
  induction n generalizing i with
  | zero => cases hx
  | succ n ih =>
    cases hbuffer : pages i with
    | none =>
      simp only [pagesRead, hbuffer] at hx
      cases hx
    | some buffer =>
      have hlt := h.lt_of_isSome hi (by rw [hbuffer]; rfl)
      simp only [pagesRead, hbuffer] at hx
      rcases List.mem_cons.1 hx with rfl | hx
      · exact hlt
      · have hsucc := OutboundChannel.toNat_succ (ne_last_of_lt hlt k.toNat_lt)
        exact ih (by omega) hx

/-- Without a missing index the loop goes around. -/
private theorem aggregate_eq_none (h : ∀ i, (pages i).isSome) (n : ℕ) (counter : UInt16) (msgBuffer : Bytes) :
    aggregate pages n counter msgBuffer = none := by
  induction n generalizing counter msgBuffer with
  | zero => rfl
  | succ n ih =>
    obtain ⟨buffer, hbuffer⟩ := Option.isSome_iff_exists.1 (h counter)
    simp only [aggregate, hbuffer]
    exact ih _ _

private theorem aggregationEnds_iff_exists (pages : UInt16 → Option Bytes) (msgBuffer : Bytes) :
    AggregationEnds pages msgBuffer ↔ ∃ i, pages i = none := by
  constructor
  · intro h
    by_contra hall
    obtain ⟨n, b, hb⟩ := h.release
    rw [aggregate_eq_none (fun i => Option.isSome_iff_ne_none.2 fun hi => hall ⟨i, hi⟩)] at hb
    cases hb
  · rintro ⟨i, hi⟩
    obtain ⟨k, hk⟩ := exists_leastMissing hi
    have hk' := k.toNat_lt
    have hzero : (0 : UInt16).toNat ≤ k.toNat := Nat.zero_le _
    refine ⟨⟨65537, _, hk.aggregate_eq_some msgBuffer⟩, ?_, ?_⟩
    · intro n x hx
      have := hk.pagesRead_lt hzero hx
      omega
    · refine ⟨65537, msgBuffer ++ (pagesBetween pages 0 k.toNat).flatten, ?_⟩
      rw [hk.aggregateChecked_eq hzero, hk.aggregate_eq_some msgBuffer, Option.map_some]

/-- For every content of the store the aggregation ends, in both runtimes and both builds and without an overflow of its
counter, exactly when some index is missing for the recipient. -/
theorem aggregation_ends_iff (q : OutboundQueue) (p : ParaId) :
    (AggregationEnds (q p).pages [1, 2, 3] ↔ ∃ i, (q p).pages i = none) ∧
      (AggregationEnds (q p).pages [] ↔ ∃ i, (q p).pages i = none) :=
  ⟨aggregationEnds_iff_exists _ _, aggregationEnds_iff_exists _ _⟩

/-- An empty page at every index. -/
def fullQueue : OutboundQueue := fun _ => ⟨fun _ => some [], 0, 65535⟩

private theorem aggregateChecked_full {n : ℕ} (counter : UInt16) (h : counter.toNat + n = 65535) (msgBuffer : Bytes) :
    aggregateChecked (fullQueue 1).pages (n + 1) counter msgBuffer = some (.error .addOverflow) := by
  induction n generalizing counter msgBuffer with
  | zero =>
    have hlast : counter = 65535 := UInt16.toNat_inj.1 h
    subst hlast
    rfl
  | succ n ih =>
    have hne : counter ≠ 65535 := ne_last_of_lt (n := 65535) (by omega) (by decide)
    have hsucc := OutboundChannel.toNat_succ hne
    rw [aggregateChecked]
    simp only [fullQueue, hne, ↓reduceIte]
    exact ih (counter + 1) (by omega) _

/-- With a page at every index the loop never ends, and a checked build panics. -/
theorem aggregation_full :
    (∀ n, aggregate (fullQueue 1).pages n 0 [1, 2, 3] = none) ∧
      aggregateChecked (fullQueue 1).pages 65536 0 [1, 2, 3] = some (.error .addOverflow) ∧
      ¬ AggregationEnds (fullQueue 1).pages [1, 2, 3] ∧ ¬ AggregationEnds (fullQueue 1).pages [] := by
  have hsome : ∀ i, ((fullQueue 1).pages i).isSome := fun _ => rfl
  have hends : ∀ msgBuffer, ¬ AggregationEnds (fullQueue 1).pages msgBuffer := by
    intro msgBuffer h
    obtain ⟨i, hi⟩ := (aggregationEnds_iff_exists _ _).1 h
    cases hi
  exact ⟨fun n => aggregate_eq_none hsome n 0 _, aggregateChecked_full 0 rfl _, hends _, hends _⟩

end XcmpPrototype
