import XcmpPrototype.Runtime
import XcmpPrototype.OutboundQueue

/-!
# Which pages the leaves of a channel hold

Every block adds one leaf to the mountain range of a channel, made of the pages that the queue then stores for the
recipient from index `0` on.  Building a leaf changes nothing in the queue; pages leave it by a mechanism of its own.
So a page that stays at index `0` over two blocks is put into two leaves, with all pages behind it.

To tell pages with the same bytes apart, a run numbers the pages of the recipient in the order in which they are sent.
`committedOnce_iff` says which runs put every page into at most one leaf.
-/

open Scale

namespace XcmpPrototype

/-! ### The pages of a leaf -/

/-- The pages that the loop of a leaf reads, each with its number. -/
def pagesRead (pages : UInt16 → Option Bytes) (number : UInt16 → ℕ) : ℕ → UInt16 → List (ℕ × Bytes)
  | 0, _ => []
  | n + 1, counter =>
    match pages counter with
    | some buffer => (number counter, buffer) :: pagesRead pages number n (counter + 1)
    | none => []

variable {pages : UInt16 → Option Bytes} {number : UInt16 → ℕ} {n : ℕ} {counter : UInt16}

/-- These pages are what the loop adds to the buffer. -/
theorem aggregate_pagesRead (number : UInt16 → ℕ) {msgBuffer b : Bytes}
    (h : aggregate pages n counter msgBuffer = some b) :
    b = msgBuffer ++ ((pagesRead pages number n counter).map Prod.snd).flatten := by
  induction n generalizing counter msgBuffer with
  | zero => cases h
  | succ n ih =>
    cases hbuffer : pages counter with
    | some buffer =>
      simp only [aggregate, hbuffer] at h
      rw [ih h]
      simp [pagesRead, hbuffer]
    | none =>
      simp only [aggregate, hbuffer, Option.some.injEq] at h
      simp [pagesRead, hbuffer, h]

private theorem exists_of_mem_pagesRead {x : ℕ × Bytes} (h : x ∈ pagesRead pages number n counter) :
    ∃ i, (pages i).isSome ∧ x.1 = number i := by
  induction n generalizing counter with
  | zero => cases h
  | succ n ih =>
    cases hbuffer : pages counter with
    | some buffer =>
      simp only [pagesRead, hbuffer] at h
      rcases List.mem_cons.1 h with rfl | h
      · exact ⟨counter, by simp [hbuffer], rfl⟩
      · exact ih h
    | none =>
      simp only [pagesRead, hbuffer] at h
      cases h

private theorem pagesRead_of_none (h : pages counter = none) : pagesRead pages number (n + 1) counter = [] := by
  simp [pagesRead, h]

private theorem mem_pagesRead_of_some {buffer : Bytes} (h : pages counter = some buffer) :
    (number counter, buffer) ∈ pagesRead pages number (n + 1) counter := by
  simp [pagesRead, h]

/-- A leaf and the pages it is made of, each with its number. -/
structure Commitment where
  leaf : MmrLeaf
  pages : List (ℕ × Bytes)
  payload : leaf.xcmpMsgs.1 = [1, 2, 3] ++ (pages.map Prod.snd).flatten

def Commitment.numbers (l : Commitment) : List ℕ := l.pages.map Prod.fst

/-! ### Runs of a channel -/

/-- A channel with the queue it reads.  The last three fields count: how many pages were sent to the recipient, how many
of them before the last block, and the number of the page that was sent to an index last. -/
structure ChannelState where
  queue : OutboundQueue
  storage : Storage
  commitments : List Commitment
  sent : ℕ
  sentBefore : ℕ
  number : UInt16 → ℕ

def ChannelState.genesis : ChannelState := ⟨.genesis, .genesis, [], 0, 0, fun _ => 0⟩

inductive ChannelEvent where
  | queue (e : QueueEvent)
  | block (parentNumberAndHash : UInt32 × H256)

variable (cfg : Config) (hashOf : Bytes → H256)

/-- Numbers a page that is sent to the recipient. -/
def ChannelState.count (s : ChannelState) : QueueEvent → ChannelState
  | .sendPage p _ =>
    if p = cfg.paraIdentifier then
      { s with sent := s.sent + 1, number := Function.update s.number (s.queue p).lastIndex s.sent }
    else s
  | _ => s

/-- The pages of the next leaf. -/
def ChannelState.pagesRead (s : ChannelState) : List (ℕ × Bytes) :=
  XcmpPrototype.pagesRead (s.queue cfg.paraIdentifier).pages s.number 65537 0

/-- A change of the queue, or a block.  There is no block when the loop does not end or its result is too long for a
vector. -/
def channelStep (s : ChannelState) : ChannelEvent → Option ChannelState
  | .queue e => (queueStep s.queue e).map fun q => { s.count cfg e with queue := q }
  | .block parentNumberAndHash =>
    match h : getXcmpMessages s.queue parentNumberAndHash.2 cfg.paraIdentifier with
    | none => none
    | some msgBuffer =>
      if hlen : msgBuffer.length < 2 ^ 32 then
        let leaf := leafData cfg hashOf s.storage parentNumberAndHash fun _ _ => ⟨msgBuffer, hlen⟩
        some { s with
          storage := leaf.1
          commitments := s.commitments ++ [⟨leaf.2, s.pagesRead cfg, aggregate_pagesRead s.number h⟩]
          sentBefore := s.sent }
      else none

/-- No page is in two leaves. -/
def CommittedOnce (s : ChannelState) : Prop := s.commitments.Pairwise fun a b => a.numbers.Disjoint b.numbers

/-- A block finds at index `0` either no page or one that was sent after the block before. -/
def FirstPageNew (s : ChannelState) : ChannelEvent → Prop
  | .queue _ => True
  | .block _ => ((s.queue cfg.paraIdentifier).pages 0).isSome → s.sentBefore ≤ s.number 0

variable {cfg hashOf} {s s' : ChannelState}

theorem channelStep_cases {e : ChannelEvent} (h : channelStep cfg hashOf s e = some s') :
    (∃ e' q, e = .queue e' ∧ queueStep s.queue e' = some q ∧ s' = { s.count cfg e' with queue := q }) ∨
      ∃ parentNumberAndHash storage l, e = .block parentNumberAndHash ∧ l.pages = s.pagesRead cfg ∧
        s' = { s with storage := storage, commitments := s.commitments ++ [l], sentBefore := s.sent } := by
  cases e with
  | queue e' =>
    obtain ⟨q, hq, rfl⟩ := Option.map_eq_some_iff.1 h
    exact .inl ⟨e', q, rfl, hq, rfl⟩
  | block parentNumberAndHash =>
    simp only [channelStep] at h
    split at h
    · cases h
    · split at h
      · cases h
        exact .inr ⟨_, _, _, rfl, rfl, rfl⟩
      · cases h

/-! ### What the numbers say -/

private theorem isSome_of_isSome_update {j : UInt16} {o : Option Bytes} (h : o.isSome → (pages j).isSome) {i : UInt16}
    (hi : (Function.update pages j o i).isSome) : (pages i).isSome := by
  by_cases hj : i = j
  · subst hj
    rw [Function.update_self] at hi
    exact h hi
  · rwa [Function.update_of_ne hj] at hi

/-- A change of the queue stores a page for `p` only by sending it, at one index. -/
private theorem isSome_pages_of_queueStep {q q' : OutboundQueue} {e : QueueEvent} (h : queueStep q e = some q')
    (p : ParaId) :
    (∃ page, e = .sendPage p page ∧
        ∀ i, ((q' p).pages i).isSome → i = (q p).lastIndex ∨ ((q p).pages i).isSome) ∨
      ((∀ page, e ≠ .sendPage p page) ∧ ∀ i, ((q' p).pages i).isSome → ((q p).pages i).isSome) := by
  cases e with
  | sendPage p' page =>
    obtain ⟨c, hc, rfl⟩ := Option.map_eq_some_iff.1 h
    by_cases hp : p = p'
    · subst hp
      refine .inl ⟨page, rfl, fun i hi => ?_⟩
      rw [Function.update_self, (OutboundChannel.sendPage_cases hc).2] at hi
      by_cases hlast : i = (q p).lastIndex
      · exact .inl hlast
      · have hold : Function.update (q p).pages (q p).lastIndex (some page) i = (q p).pages i :=
          Function.update_of_ne hlast _ _
        rw [← hold]
        exact .inr hi
    · refine .inr ⟨fun _ he => hp (QueueEvent.sendPage.inj he).1.symm, fun i hi => ?_⟩
      rwa [Function.update_of_ne hp] at hi
  | extendPage p' fragment =>
    obtain ⟨c, hc, rfl⟩ := Option.map_eq_some_iff.1 h
    refine .inr ⟨fun _ => by simp, fun i hi => ?_⟩
    by_cases hp : p = p'
    · subst hp
      rw [Function.update_self, (OutboundChannel.extendPage_cases hc).2] at hi
      exact isSome_of_isSome_update (by simp) hi
    · rwa [Function.update_of_ne hp] at hi
  | take p' =>
    obtain ⟨c, hc, rfl⟩ := Option.map_eq_some_iff.1 h
    refine .inr ⟨fun _ => by simp, fun i hi => ?_⟩
    by_cases hp : p = p'
    · subst hp
      rw [Function.update_self] at hi
      rcases (OutboundChannel.take_cases hc).2 with ⟨-, rfl⟩ | ⟨-, rfl⟩
      · exact isSome_of_isSome_update (by simp) hi
      · exact isSome_of_isSome_update (by simp) hi
    · rwa [Function.update_of_ne hp] at hi

/-- The pages stored for the recipient are numbered in the order of their indices, and a page at index `0` that was
sent before the last block is in a leaf. -/
structure Numbered (cfg : Config) (s : ChannelState) : Prop where
  reachable : Reachable queueStep .genesis s.queue
  lt_sent : ∀ i, ((s.queue cfg.paraIdentifier).pages i).isSome → s.number i < s.sent
  first_le : ((s.queue cfg.paraIdentifier).pages 0).isSome →
    ∀ i, ((s.queue cfg.paraIdentifier).pages i).isSome → s.number 0 ≤ s.number i
  before_le : s.sentBefore ≤ s.sent
  lt_before : ∀ l ∈ s.commitments, ∀ k ∈ l.numbers, k < s.sentBefore
  committed : ((s.queue cfg.paraIdentifier).pages 0).isSome → s.number 0 < s.sentBefore →
    ∃ l ∈ s.commitments, s.number 0 ∈ l.numbers

private theorem count_of_ne {e : QueueEvent} (h : ∀ page, e ≠ .sendPage cfg.paraIdentifier page) :
    s.count cfg e = s := by
  cases e with
  | sendPage p page =>
    have hp : p ≠ cfg.paraIdentifier := by
      rintro rfl
      exact h page rfl
    simp [ChannelState.count, hp]
  | extendPage p fragment => rfl
  | take p => rfl

/-- A page that is sent gets the largest number and the last index. -/
private theorem Numbered.send {page : Bytes} {q : OutboundQueue} (h : Numbered cfg s)
    (hq : queueStep s.queue (.sendPage cfg.paraIdentifier page) = some q)
    (hstored : ∀ i, ((q cfg.paraIdentifier).pages i).isSome →
      i = (s.queue cfg.paraIdentifier).lastIndex ∨ ((s.queue cfg.paraIdentifier).pages i).isSome) :
    Numbered cfg { s.count cfg (.sendPage cfg.paraIdentifier page) with queue := q } := by
  have hw := Reachable.window h.reachable cfg.paraIdentifier
  have hlt : ∀ i, ((s.queue cfg.paraIdentifier).pages i).isSome →
      i.toNat < (s.queue cfg.paraIdentifier).lastIndex.toNat := fun i hi => ((hw.mem i).1 hi).2
  have hnew : Function.update s.number (s.queue cfg.paraIdentifier).lastIndex s.sent
      (s.queue cfg.paraIdentifier).lastIndex = s.sent := Function.update_self _ _ _
  have hold : ∀ i, ((s.queue cfg.paraIdentifier).pages i).isSome →
      Function.update s.number (s.queue cfg.paraIdentifier).lastIndex s.sent i = s.number i := by
    intro i hi
    apply Function.update_of_ne
    rintro rfl
    exact absurd (hlt _ hi) (lt_irrefl _)
  simp only [ChannelState.count, ↓reduceIte]
  refine ⟨h.reachable.tail trivial hq, ?_, ?_, h.before_le.trans (Nat.le_succ _), h.lt_before, ?_⟩
  · intro i hi
    rcases hstored i hi with rfl | hi
    · exact hnew.trans_lt (Nat.lt_succ_self _)
    · exact (hold i hi).trans_lt ((h.lt_sent i hi).trans (Nat.lt_succ_self _))
  · intro h0 i hi
    rcases hstored 0 h0 with hlast | h0
    · -- the new page is the only one
      rcases hstored i hi with rfl | hi
      · rw [hlast]
      · have hi' := hlt i hi
        rw [← hlast, UInt16.toNat_zero] at hi'
        omega
    · rcases hstored i hi with rfl | hi
      · exact (hold 0 h0).trans_le ((h.lt_sent 0 h0).le.trans hnew.ge)
      · exact (hold 0 h0).trans_le ((h.first_le h0 i hi).trans (hold i hi).ge)
  · intro h0 hbefore
    rcases hstored 0 h0 with hlast | h0
    · rw [hlast] at hbefore
      exact absurd h.before_le (not_le.2 (hnew.symm.trans_lt hbefore))
    · obtain ⟨l, hl, hmem⟩ := h.committed h0 ((hold 0 h0).symm.trans_lt hbefore)
      rw [← hold 0 h0] at hmem
      exact ⟨l, hl, hmem⟩

private theorem Numbered.queue {e : QueueEvent} {q : OutboundQueue} (h : Numbered cfg s)
    (hq : queueStep s.queue e = some q) : Numbered cfg { s.count cfg e with queue := q } := by
  rcases isSome_pages_of_queueStep hq cfg.paraIdentifier with ⟨page, rfl, hstored⟩ | ⟨hne, hstored⟩
  · exact h.send hq hstored
  · rw [count_of_ne hne]
    refine ⟨h.reachable.tail trivial hq, ?_, ?_, h.before_le, h.lt_before, ?_⟩
    · intro i hi
      exact h.lt_sent i (hstored i hi)
    · intro h0 i hi
      exact h.first_le (hstored 0 h0) i (hstored i hi)
    · intro h0
      exact h.committed (hstored 0 h0)

private theorem Numbered.numbers_lt {l : Commitment} (h : Numbered cfg s) (hl : l.pages = s.pagesRead cfg) :
    ∀ k ∈ l.numbers, k < s.sent := by
  intro k hk
  rw [Commitment.numbers, hl] at hk
  obtain ⟨x, hx, rfl⟩ := List.mem_map.1 hk
  obtain ⟨i, hi, hnumber⟩ := exists_of_mem_pagesRead hx
  rw [hnumber]
  exact h.lt_sent i hi

/-- A leaf holds the page at index `0`. -/
private theorem number_zero_mem {l : Commitment} (hl : l.pages = s.pagesRead cfg)
    (h0 : ((s.queue cfg.paraIdentifier).pages 0).isSome) : s.number 0 ∈ l.numbers := by
  obtain ⟨buffer, hbuffer⟩ := Option.isSome_iff_exists.1 h0
  rw [Commitment.numbers, hl]
  exact List.mem_map.2 ⟨_, mem_pagesRead_of_some hbuffer, rfl⟩

private theorem Numbered.step {e : ChannelEvent} (h : Numbered cfg s) (hs : channelStep cfg hashOf s e = some s') :
    Numbered cfg s' := by
  rcases channelStep_cases hs with ⟨e', q, rfl, hq, rfl⟩ | ⟨parent, storage, l, rfl, hl, rfl⟩
  · exact h.queue hq
  · refine ⟨h.reachable, h.lt_sent, h.first_le, le_rfl, ?_, ?_⟩
    · intro l' hl' k hk
      rcases List.mem_append.1 hl' with hl' | hl'
      · exact (h.lt_before l' hl' k hk).trans_le h.before_le
      · rw [List.mem_singleton.1 hl'] at hk
        exact h.numbers_lt hl k hk
    · intro h0 _
      exact ⟨l, List.mem_append_right _ (List.mem_singleton_self l), number_zero_mem hl h0⟩

private theorem numbered_genesis : Numbered cfg .genesis := by
  refine ⟨.refl, ?_, ?_, le_rfl, ?_, ?_⟩
  · intro i hi
    cases hi
  · intro h0
    cases h0
  · intro l hl
    cases hl
  · intro h0
    cases h0

theorem Reachable.numbered (h : Reachable (channelStep cfg hashOf) .genesis s) : Numbered cfg s :=
  h.invariant numbered_genesis fun _ _ _ ih _ hs => ih.step hs

/-! ### When a page is committed once -/

/-- A new leaf shares no page with the leaves before exactly when it finds a new page at index `0`, or none. -/
private theorem Numbered.disjoint_iff (h : Numbered cfg s) {l : Commitment} (hl : l.pages = s.pagesRead cfg) :
    (∀ l' ∈ s.commitments, l'.numbers.Disjoint l.numbers) ↔
      (((s.queue cfg.paraIdentifier).pages 0).isSome → s.sentBefore ≤ s.number 0) := by
  constructor
  · intro hd h0
    by_contra hlt
    obtain ⟨l', hl', hmem⟩ := h.committed h0 (not_le.1 hlt)
    exact hd l' hl' hmem (number_zero_mem hl h0)
  · intro hnew l' hl' k hk' hk
    rw [Commitment.numbers, hl] at hk
    obtain ⟨x, hx, rfl⟩ := List.mem_map.1 hk
    cases h0 : (s.queue cfg.paraIdentifier).pages 0 with
    | none =>
      rw [ChannelState.pagesRead, pagesRead_of_none h0] at hx
      cases hx
    | some buffer =>
      obtain ⟨i, hi, hnumber⟩ := exists_of_mem_pagesRead hx
      have hsome : ((s.queue cfg.paraIdentifier).pages 0).isSome := by simp [h0]
      have hold := h.lt_before l' hl' x.1 hk'
      have hfirst := h.first_le hsome i hi
      have hbefore := hnew hsome
      omega

private theorem CommittedOnce.step_iff {e : ChannelEvent} (h : Numbered cfg s)
    (hs : channelStep cfg hashOf s e = some s') : CommittedOnce s' ↔ CommittedOnce s ∧ FirstPageNew cfg s e := by
  rcases channelStep_cases hs with ⟨e', q, rfl, hq, rfl⟩ | ⟨parent, storage, l, rfl, hl, rfl⟩
  · have hcount : (s.count cfg e').commitments = s.commitments := by
      unfold ChannelState.count
      split
      · split <;> rfl
      · rfl
    simp only [CommittedOnce, hcount, FirstPageNew, and_true]
  · simp only [CommittedOnce, List.pairwise_append, List.pairwise_singleton, true_and, List.mem_singleton,
      forall_eq, h.disjoint_iff hl, FirstPageNew]

/-- A run puts every page into at most one leaf exactly when each of its blocks finds at index `0` no page or one that
was sent after the block before. -/
theorem committedOnce_iff (cfg : Config) (hashOf : Bytes → H256) (s : ChannelState)
    (h : Reachable (channelStep cfg hashOf) .genesis s) :
    CommittedOnce s ↔ Reaches (channelStep cfg hashOf) (FirstPageNew cfg) .genesis s := by
  constructor
  · intro honce
    induction h with
    | refl => exact .refl
    | tail h _ hs ih =>
      obtain ⟨honce, hnew⟩ := (CommittedOnce.step_iff (Reachable.numbered h) hs).1 honce
      exact (ih honce).tail hnew hs
  · intro hr
    refine (hr.invariant (I := fun s => Numbered cfg s ∧ CommittedOnce s) ?_ ?_).2
    · exact ⟨numbered_genesis, List.Pairwise.nil⟩
    · intro s e s' ih hnew hs
      exact ⟨ih.1.step hs, (CommittedOnce.step_iff ih.1 hs).2 ⟨ih.2, hnew⟩⟩

/-- The payload and the pages of each leaf after a run for parachain `1`. -/
def payloads (es : List ChannelEvent) : Option (List (Bytes × List (ℕ × Bytes))) :=
  (run (channelStep configParaA keccak256) .genesis es).map fun s =>
    s.commitments.map fun l => (l.leaf.xcmpMsgs.1, l.pages)

/-- Two blocks, and between them the page of the first one is taken. -/
theorem committedOnce_iff_taken :
    ∃ s, Reachable (channelStep configParaA keccak256) .genesis s ∧
      s.commitments.map Commitment.pages = [[(0, [7])], [(1, [8])]] ∧
      (CommittedOnce s ↔ Reaches (channelStep configParaA keccak256) (FirstPageNew configParaA) .genesis s) := by
  have h : payloads [.queue (.sendPage 1 [7]), .block (0, H256.zero), .queue (.take 1), .queue (.sendPage 1 [8]),
      .block (1, H256.zero)] = some [([1, 2, 3, 7], [(0, [7])]), ([1, 2, 3, 8], [(1, [8])])] := by
    decide +kernel
  obtain ⟨s, hs, hpages⟩ := Option.map_eq_some_iff.1 h
  refine ⟨s, reaches_of_run _ hs, ?_, committedOnce_iff configParaA keccak256 s (reaches_of_run _ hs)⟩
  have hmap := congrArg (List.map Prod.snd) hpages
  rwa [List.map_map] at hmap

/-- A page that nobody takes is in the leaves of both blocks that follow. -/
theorem committed_twice :
    ∃ s a b, Reachable (channelStep configParaA keccak256) .genesis s ∧ s.commitments = [a, b] ∧
      a.leaf.xcmpMsgs.1 = [1, 2, 3, 7] ∧ b.leaf.xcmpMsgs.1 = [1, 2, 3, 7] ∧ a.pages = [(0, [7])] ∧
      b.pages = [(0, [7])] ∧ ¬ CommittedOnce s := by
  have h : payloads [.queue (.sendPage 1 [7]), .block (0, H256.zero), .block (1, H256.zero)] =
      some [([1, 2, 3, 7], [(0, [7])]), ([1, 2, 3, 7], [(0, [7])])] := by
    decide +kernel
  obtain ⟨s, hs, hpages⟩ := Option.map_eq_some_iff.1 h
  obtain ⟨a, l, hl, ha, hrest⟩ := List.map_eq_cons_iff.1 hpages
  obtain ⟨b, l', rfl, hb, hnil⟩ := List.map_eq_cons_iff.1 hrest
  obtain rfl := List.map_eq_nil_iff.1 hnil
  simp only [Prod.mk.injEq] at ha hb
  refine ⟨s, a, b, reaches_of_run _ hs, hl, ha.1, hb.1, ha.2, hb.2, ?_⟩
  intro honce
  rw [CommittedOnce, hl, List.pairwise_pair] at honce
  exact honce (a := 0) (by simp [Commitment.numbers, ha.2]) (by simp [Commitment.numbers, hb.2])

end XcmpPrototype
