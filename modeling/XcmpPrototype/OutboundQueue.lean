import XcmpPrototype.Primitives
import XcmpPrototype.Runs

/-!
# The outbound queue and the messages of a leaf

The queue keeps numbered pages for each recipient.  Sending adds a page at the end or extends the last one, taking
removes the first page, and the numbering starts again only when the queue is empty; so the pages of a recipient fill a
window of indices that moves to the right (`Window`).  A leaf collects pages from index `0` up to the first missing one.
In every reachable state it therefore holds all pages of a recipient exactly when the window starts at `0`, but for
pages that can be found in the fixed first bytes.
-/

open Scale

namespace XcmpPrototype

/-! ### The queue -/

/-- The pages of `OutboundXcmpMessages` for one recipient, and its two indices. -/
structure OutboundChannel where
  pages : UInt16 → Option Bytes
  firstIndex : UInt16
  lastIndex : UInt16

namespace OutboundChannel

def empty : OutboundChannel := ⟨fun _ => none, 0, 0⟩

variable (c : OutboundChannel)

def sendPage (page : Bytes) : Option OutboundChannel :=
  -- the last index stays free, so it is never a full turn ahead
  if c.lastIndex = 65535 then none
  else some ⟨Function.update c.pages c.lastIndex (some page), c.firstIndex, c.lastIndex + 1⟩

def extendPage (fragment : Bytes) : Option OutboundChannel :=
  if c.firstIndex = c.lastIndex then none
  else
    let page := (c.pages (c.lastIndex - 1)).map fun page => page ++ fragment
    some ⟨Function.update c.pages (c.lastIndex - 1) page, c.firstIndex, c.lastIndex⟩

def take : Option OutboundChannel :=
  if c.firstIndex = c.lastIndex then none
  else
    let pages := Function.update c.pages c.firstIndex none
    if c.firstIndex + 1 = c.lastIndex then some ⟨pages, 0, 0⟩ else some ⟨pages, c.firstIndex + 1, c.lastIndex⟩

/-- The pages fill exactly the indices from `first` up to `last`. -/
structure Fills (pages : UInt16 → Option Bytes) (first last : UInt16) : Prop where
  le : first.toNat ≤ last.toNat
  reset : first = last → first = 0
  mem : ∀ i, (pages i).isSome ↔ first.toNat ≤ i.toNat ∧ i.toNat < last.toNat

def Window : Prop := Fills c.pages c.firstIndex c.lastIndex

variable {c} {c' : OutboundChannel}

theorem sendPage_cases {page : Bytes} (h : c.sendPage page = some c') :
    c.lastIndex ≠ 65535 ∧
      c' = ⟨Function.update c.pages c.lastIndex (some page), c.firstIndex, c.lastIndex + 1⟩ := by
  unfold sendPage at h
  split at h
  · cases h
  · rename_i hlast
    cases h
    exact ⟨hlast, rfl⟩

theorem extendPage_cases {fragment : Bytes} (h : c.extendPage fragment = some c') :
    c.firstIndex ≠ c.lastIndex ∧
      c' = ⟨Function.update c.pages (c.lastIndex - 1) ((c.pages (c.lastIndex - 1)).map fun page => page ++ fragment),
        c.firstIndex, c.lastIndex⟩ := by
  unfold extendPage at h
  split at h
  · cases h
  · rename_i hne
    cases h
    exact ⟨hne, rfl⟩

/-- Taking the last page starts the numbering again. -/
theorem take_cases (h : c.take = some c') :
    c.firstIndex ≠ c.lastIndex ∧
      ((c.firstIndex + 1 = c.lastIndex ∧ c' = ⟨Function.update c.pages c.firstIndex none, 0, 0⟩) ∨
        (c.firstIndex + 1 ≠ c.lastIndex ∧
          c' = ⟨Function.update c.pages c.firstIndex none, c.firstIndex + 1, c.lastIndex⟩)) := by
  unfold take at h
  split at h
  · cases h
  · rename_i hne
    refine ⟨hne, ?_⟩
    split at h
    · rename_i hone
      cases h
      exact .inl ⟨hone, rfl⟩
    · rename_i hone
      cases h
      exact .inr ⟨hone, rfl⟩

theorem window_empty : Window empty := ⟨le_rfl, fun _ => rfl, by simp [empty]⟩

theorem toNat_succ {i : UInt16} (h : i ≠ 65535) : (i + 1).toNat = i.toNat + 1 := by
  have hi := i.toNat_lt
  have hne : i.toNat ≠ 65535 := fun h' => h (UInt16.toNat_inj.1 h')
  rw [UInt16.toNat_add, UInt16.toNat_one]
  omega

theorem Window.sendPage (h : Window c) {page : Bytes} (hs : c.sendPage page = some c') : Window c' := by
  obtain ⟨hlast, rfl⟩ := sendPage_cases hs
  have hle := h.le
  have hsucc := toNat_succ hlast
  show Fills (Function.update c.pages c.lastIndex (some page)) c.firstIndex (c.lastIndex + 1)
  refine ⟨by omega, fun he => ?_, fun i => ?_⟩
  · rw [← UInt16.toNat_inj] at he
    omega
  · by_cases hi : i = c.lastIndex
    · subst hi
      simp only [Function.update_self, Option.isSome_some, true_iff]
      omega
    · have hne : i.toNat ≠ c.lastIndex.toNat := fun h' => hi (UInt16.toNat_inj.1 h')
      rw [Function.update_of_ne hi, h.mem i]
      omega

theorem Window.extendPage (h : Window c) {fragment : Bytes} (hs : c.extendPage fragment = some c') : Window c' := by
  obtain ⟨-, rfl⟩ := extendPage_cases hs
  refine Fills.mk h.le h.reset fun i => ?_
  show (Function.update c.pages (c.lastIndex - 1) _ i).isSome ↔ _
  rw [← h.mem i]
  by_cases hi : i = c.lastIndex - 1
  · subst hi
    rw [Function.update_self, Option.isSome_map]
  · rw [Function.update_of_ne hi]

theorem Window.take (h : Window c) (hs : c.take = some c') : Window c' := by
  obtain ⟨hne, hcases⟩ := take_cases hs
  have hle := h.le
  have hlt : c.firstIndex.toNat ≠ c.lastIndex.toNat := fun h' => hne (UInt16.toNat_inj.1 h')
  have hfirst : c.firstIndex ≠ 65535 := by
    intro hmax
    have := c.lastIndex.toNat_lt
    rw [hmax, show (65535 : UInt16).toNat = 65535 from rfl] at hle hlt
    omega
  have hsucc := toNat_succ hfirst
  have hmem : ∀ i, (Function.update c.pages c.firstIndex none i).isSome ↔
      c.firstIndex.toNat + 1 ≤ i.toNat ∧ i.toNat < c.lastIndex.toNat := by
    intro i
    by_cases hi : i = c.firstIndex
    · subst hi
      simp
    · have hi' : i.toNat ≠ c.firstIndex.toNat := fun h' => hi (UInt16.toNat_inj.1 h')
      rw [Function.update_of_ne hi, h.mem i]
      omega
  rcases hcases with ⟨hone, rfl⟩ | ⟨hone, rfl⟩
  · rw [← UInt16.toNat_inj] at hone
    show Fills _ 0 0
    refine ⟨le_rfl, fun _ => rfl, fun i => ?_⟩
    rw [hmem i, UInt16.toNat_zero]
    omega
  · show Fills _ (c.firstIndex + 1) c.lastIndex
    refine ⟨by omega, fun he => absurd he hone, fun i => ?_⟩
    rw [hmem i, hsucc]

end OutboundChannel

abbrev OutboundQueue := ParaId → OutboundChannel

def OutboundQueue.genesis : OutboundQueue := fun _ => .empty

inductive QueueEvent where
  | sendPage (recipient : ParaId) (page : Bytes)
  | extendPage (recipient : ParaId) (fragment : Bytes)
  | take (recipient : ParaId)

def queueStep (q : OutboundQueue) : QueueEvent → Option OutboundQueue
  | .sendPage p page => ((q p).sendPage page).map (Function.update q p)
  | .extendPage p fragment => ((q p).extendPage fragment).map (Function.update q p)
  | .take p => (q p).take.map (Function.update q p)

private theorem window_update {q : OutboundQueue} {p : ParaId} {c : OutboundChannel} (hq : ∀ p, (q p).Window)
    (hc : c.Window) (p' : ParaId) : (Function.update q p c p').Window := by
  by_cases hp : p' = p
  · subst hp
    rwa [Function.update_self]
  · rw [Function.update_of_ne hp]
    exact hq p'

theorem Reachable.window {q : OutboundQueue} (h : Reachable queueStep .genesis q) (p : ParaId) : (q p).Window := by
  revert p
  refine h.invariant (I := fun q => ∀ p, (q p).Window) (fun _ => OutboundChannel.window_empty) ?_
  intro q e q' hq _ hs
  cases e with
  | sendPage p page =>
    obtain ⟨c, hc, rfl⟩ := Option.map_eq_some_iff.1 hs
    exact window_update hq ((hq p).sendPage hc)
  | extendPage p fragment =>
    obtain ⟨c, hc, rfl⟩ := Option.map_eq_some_iff.1 hs
    exact window_update hq ((hq p).extendPage hc)
  | take p =>
    obtain ⟨c, hc, rfl⟩ := Option.map_eq_some_iff.1 hs
    exact window_update hq ((hq p).take hc)

/-! ### The messages of a leaf -/

/-- The loop that collects pages; the fuel bounds the number of pages looked up. -/
def aggregate (pages : UInt16 → Option Bytes) : ℕ → UInt16 → Bytes → Option Bytes
  | 0, _, _ => none
  | n + 1, counter, msgBuffer =>
    match pages counter with
    | some buffer => aggregate pages n (counter + 1) (msgBuffer ++ buffer)
    | none => some msgBuffer

/-- `XcmpDataProvider::get_xcmp_messages`; there is no result when the loop does not end.  A counter that has looked up
all `65536` indices comes back to `0`. -/
def getXcmpMessages (q : OutboundQueue) (_blockHash : H256) (paraId : ParaId) : Option Bytes :=
  aggregate (q paraId).pages 65537 0 [1, 2, 3]

/-- The pages from index `i` up to `k`. -/
def pagesBetween (pages : UInt16 → Option Bytes) (i k : ℕ) : List Bytes :=
  (List.range' i (k - i)).filterMap fun j => pages (UInt16.ofNat j)

/-- The loop stops at the first missing index with all pages before it. -/
theorem aggregate_eq (pages : UInt16 → Option Bytes) {k : ℕ} (hsome : ∀ j < k, (pages (UInt16.ofNat j)).isSome)
    (hnone : pages (UInt16.ofNat k) = none) {n i : ℕ} (hi : i ≤ k) (hn : k - i < n) (msgBuffer : Bytes) :
    aggregate pages n (UInt16.ofNat i) msgBuffer = some (msgBuffer ++ (pagesBetween pages i k).flatten) := by
  induction n generalizing i msgBuffer with
  | zero => omega
  | succ n ih =>
    rcases Nat.lt_or_eq_of_le hi with hlt | rfl
    · obtain ⟨page, hpage⟩ := Option.isSome_iff_exists.1 (hsome i hlt)
      have hpages : pagesBetween pages i k = page :: pagesBetween pages (i + 1) k := by
        simp only [pagesBetween, show k - i = (k - (i + 1)) + 1 by omega, List.range'_succ, List.filterMap_cons, hpage]
      have hnext : UInt16.ofNat i + 1 = UInt16.ofNat (i + 1) := by rw [UInt16.ofNat_add]; rfl
      simp only [aggregate, hpage, hnext]
      rw [ih (by omega) (by omega), hpages, List.flatten_cons, List.append_assoc]
    · simp [aggregate, hnone, pagesBetween]

/-- The pages stored for a recipient, in the order of their indices. -/
def OutboundChannel.stored (c : OutboundChannel) : List Bytes :=
  pagesBetween c.pages c.firstIndex.toNat c.lastIndex.toNat

/-- The strings occur in `b` one after the other. -/
def ContainsInOrder : List Bytes → Bytes → Prop
  | [], _ => True
  | p :: ps, b => ∃ u v, b = u ++ p ++ v ∧ ContainsInOrder ps v

theorem containsInOrder_flatten (u : Bytes) (ps : List Bytes) : ContainsInOrder ps (u ++ ps.flatten) := by
  induction ps generalizing u with
  | nil => trivial
  | cons p ps ih =>
    refine ⟨u, ps.flatten, by simp, ?_⟩
    simpa using ih []

theorem getXcmpMessages_of_zero {q : OutboundQueue} {p : ParaId} (h : (q p).Window)
    (hfirst : (q p).firstIndex = 0) (blockHash : H256) :
    getXcmpMessages q blockHash p = some ([1, 2, 3] ++ (q p).stored.flatten) := by
  have hlast := (q p).lastIndex.toNat_lt
  have hmem : ∀ j < 2 ^ 16, ((q p).pages (UInt16.ofNat j)).isSome ↔ j < (q p).lastIndex.toNat := by
    intro j hj
    rw [h.mem, hfirst, UInt16.toNat_ofNat_of_lt' hj]
    simp
  have h0 := aggregate_eq (q p).pages (k := (q p).lastIndex.toNat) (n := 65537) (i := 0)
    (fun j hj => (hmem j (by omega)).2 hj) (by simpa using hmem (q p).lastIndex.toNat hlast) (Nat.zero_le _) (by omega)
    [1, 2, 3]
  rw [OutboundChannel.stored, hfirst]
  exact h0

theorem getXcmpMessages_of_ne_zero {q : OutboundQueue} {p : ParaId} (h : (q p).Window)
    (hfirst : (q p).firstIndex ≠ 0) (blockHash : H256) : getXcmpMessages q blockHash p = some [1, 2, 3] := by
  have hnone : (q p).pages 0 = none := by
    have h0 : (q p).firstIndex.toNat ≠ 0 := fun h' => hfirst (UInt16.toNat_inj.1 h')
    have := (h.mem 0).not.2 (by rw [UInt16.toNat_zero]; omega)
    simpa using this
  simp [getXcmpMessages, aggregate, hnone]

/-- In every reachable state the messages of a leaf are defined, and they contain all pages of the recipient in order
exactly when its window starts at `0` or the pages can be found in the first three bytes. -/
theorem getXcmpMessages_complete_iff (q : OutboundQueue) (h : Reachable queueStep .genesis q) (blockHash : H256)
    (p : ParaId) :
    ∃ b, getXcmpMessages q blockHash p = some b ∧
      (ContainsInOrder (q p).stored b ↔ (q p).firstIndex = 0 ∨ ContainsInOrder (q p).stored [1, 2, 3]) := by
  have hw := Reachable.window h p
  by_cases hfirst : (q p).firstIndex = 0
  · refine ⟨_, getXcmpMessages_of_zero hw hfirst blockHash, ?_⟩
    simp only [hfirst, true_or, iff_true]
    exact containsInOrder_flatten _ _
  · refine ⟨_, getXcmpMessages_of_ne_zero hw hfirst blockHash, ?_⟩
    simp [hfirst]

/-- Two pages were sent to parachain `1` and the first one was taken. -/
def queueAfterTake : OutboundQueue :=
  (run queueStep .genesis [.sendPage 1 [7], .sendPage 1 [8], .take 1]).getD .genesis

theorem reachable_queueAfterTake : Reachable queueStep .genesis queueAfterTake :=
  reaches_of_run [.sendPage 1 [7], .sendPage 1 [8], .take 1] rfl

theorem getXcmpMessages_complete_iff_afterTake :
    ∃ b, getXcmpMessages queueAfterTake H256.zero 1 = some b ∧
      (ContainsInOrder (queueAfterTake 1).stored b ↔
        (queueAfterTake 1).firstIndex = 0 ∨ ContainsInOrder (queueAfterTake 1).stored [1, 2, 3]) :=
  getXcmpMessages_complete_iff queueAfterTake reachable_queueAfterTake H256.zero 1

/-- The second page is still stored, and the leaf leaves it out. -/
theorem getXcmpMessages_incomplete_afterTake :
    Reachable queueStep .genesis queueAfterTake ∧ (queueAfterTake 1).stored = [[8]] ∧
      getXcmpMessages queueAfterTake H256.zero 1 = some [1, 2, 3] ∧
      ¬ ContainsInOrder (queueAfterTake 1).stored [1, 2, 3] := by
  have hstored : (queueAfterTake 1).stored = [[8]] := by decide +kernel
  refine ⟨reachable_queueAfterTake, hstored, by decide +kernel, ?_⟩
  rw [hstored]
  rintro ⟨u, v, h, -⟩
  have hmem : (8 : UInt8) ∈ [1, 2, 3] := by
    rw [h]
    simp
  exact absurd hmem (by decide)

end XcmpPrototype
