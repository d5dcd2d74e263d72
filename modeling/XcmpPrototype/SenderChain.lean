import XcmpPrototype.Channels
import XcmpPrototype.LeafEncodings

/-!
# A sending parachain

The outbound queue and the runtime on one chain.  Pages come and go in the queue, calls reach the two message stuffers,
and each block takes what it then finds in the queue into one leaf for each channel.  In every run the two ranges grow
in lockstep, one leaf for each block, and the leaf of a block stays as it was made (`sender_leaves`): the pages of its
own recipient that the queue held at that block, from index `0` on.

Each step is a step of the queue, of the runtime, or of both (`Reachable.queue`, `Reachable.runtime`), so what is known
of their runs holds on the chain.
-/

open Scale

namespace XcmpPrototype

/-! ### Steps of the chain -/

/-- The messages of a leaf as a vector; there is none when the loop does not end or its result is too long. -/
def messagesFor (q : OutboundQueue) (blockHash : H256) (paraId : ParaId) : Option (Vec UInt8) :=
  (getXcmpMessages q blockHash paraId).bind fun b => if h : b.length < 2 ^ 32 then some ⟨b, h⟩ else none

/-- What a block found at its start. -/
structure SenderBlock where
  queue : OutboundQueue
  parentHash : H256

/-- The chain: its queue, its runtime, the number of the last block, and what its blocks found. -/
structure SenderState where
  queue : OutboundQueue
  runtime : RuntimeState
  number : UInt32
  blocks : List SenderBlock

def SenderState.genesis : SenderState := ⟨.genesis, .genesis, 0, []⟩

inductive SenderEvent where
  | queue (e : QueueEvent)
  | block (getRoot : Option H256) (parentHash : H256)
  | callParaA (origin : Origin) (call : Call)
  | callParaB (origin : Origin) (call : Call)

/-- The start of the next block, with messages for the two channels. -/
def SenderState.nextBlock (s : SenderState) (getRoot : Option H256) (parentHash : H256) : Option BlockStart := do
  let a ← messagesFor s.queue parentHash configParaA.paraIdentifier
  let b ← messagesFor s.queue parentHash configParaB.paraIdentifier
  return ⟨s.number + 1, getRoot, parentNumberAndHash (s.number + 1) parentHash,
    fun p => if p = configParaA.paraIdentifier then a else b⟩

def senderStep (env : Externals) (hashOf : Bytes → H256) (s : SenderState) : SenderEvent → Option SenderState
  | .queue e => (queueStep s.queue e).map fun q => { s with queue := q }
  | .block getRoot parentHash => (s.nextBlock getRoot parentHash).map fun b => { s with
      runtime := initializeBlock hashOf s.runtime b
      number := b.number
      blocks := s.blocks ++ [⟨s.queue, parentHash⟩] }
  | .callParaA origin call =>
    (runtimeStep env hashOf s.runtime (.callParaA origin call)).map fun r => { s with runtime := r }
  | .callParaB origin call =>
    (runtimeStep env hashOf s.runtime (.callParaB origin call)).map fun r => { s with runtime := r }

variable {env : Externals} {hashOf : Bytes → H256} {s s' : SenderState}

/-- What a step of the chain can do. -/
theorem senderStep_cases {e : SenderEvent} (h : senderStep env hashOf s e = some s') :
    (∃ e' q, e = .queue e' ∧ queueStep s.queue e' = some q ∧ s' = { s with queue := q }) ∨
      (∃ getRoot parentHash b, e = .block getRoot parentHash ∧ s.nextBlock getRoot parentHash = some b ∧
        s' = { s with
          runtime := initializeBlock hashOf s.runtime b
          number := b.number
          blocks := s.blocks ++ [⟨s.queue, parentHash⟩] }) ∨
      ∃ e' r, (∀ b, e' ≠ .block b) ∧ runtimeStep env hashOf s.runtime e' = some r ∧ s' = { s with runtime := r } := by
  cases e with
  | queue e' =>
    obtain ⟨q, hq, rfl⟩ := Option.map_eq_some_iff.1 h
    exact Or.inl ⟨e', q, rfl, hq, rfl⟩
  | block getRoot parentHash =>
    obtain ⟨b, hb, rfl⟩ := Option.map_eq_some_iff.1 h
    exact Or.inr (Or.inl ⟨getRoot, parentHash, b, rfl, hb, rfl⟩)
  | callParaA origin call =>
    cases h
    exact Or.inr (Or.inr ⟨.callParaA origin call, _, by simp, rfl, rfl⟩)
  | callParaB origin call =>
    cases h
    exact Or.inr (Or.inr ⟨.callParaB origin call, _, by simp, rfl, rfl⟩)

/-- The queue of the chain runs as a queue alone. -/
theorem Reachable.queue (h : Reachable (senderStep env hashOf) .genesis s) : Reachable queueStep .genesis s.queue := by
  refine h.invariant (I := fun s => Reachable queueStep .genesis s.queue) .refl ?_
  intro s e s' ih _ hs
  rcases senderStep_cases hs with ⟨e', q, -, hq, rfl⟩ | ⟨_, _, _, -, -, rfl⟩ | ⟨_, _, -, -, rfl⟩
  · exact ih.tail trivial hq
  · exact ih
  · exact ih

/-- The runtime of the chain runs as a runtime alone. -/
theorem Reachable.runtime (h : Reachable (senderStep env hashOf) .genesis s) :
    Reachable (runtimeStep env hashOf) .genesis s.runtime := by
  refine h.invariant (I := fun s => Reachable (runtimeStep env hashOf) .genesis s.runtime) .refl ?_
  intro s e s' ih _ hs
  rcases senderStep_cases hs with ⟨_, _, -, -, rfl⟩ | ⟨_, _, b, -, -, rfl⟩ | ⟨e', r, -, hr, rfl⟩
  · exact ih
  · exact ih.tail (e := .block b) trivial rfl
  · exact ih.tail trivial hr

/-! ### The leaves of a channel -/

inductive Channel where
  | paraA
  | paraB

namespace Channel

def config : Channel → Config
  | paraA => configParaA
  | paraB => configParaB

def mmr (st : RuntimeState) : Channel → MmrState MmrLeaf
  | paraA => st.mmrParaA
  | paraB => st.mmrParaB

/-- The leaf that a block with number `n` makes of what it found. -/
def leafOf (c : Channel) (n : UInt32) (x : SenderBlock) : Option MmrLeaf :=
  (messagesFor x.queue x.parentHash c.config.paraIdentifier).map fun m =>
    ⟨m, c.config.leafVersion, parentNumberAndHash n x.parentHash⟩

end Channel

/-- The number of the last block, and the leaves of both channels, are those of the blocks so far. -/
structure Recorded (s : SenderState) : Prop where
  number : s.number = UInt32.ofNat s.blocks.length
  last : ∀ c : Channel, (c.mmr s.runtime).blockNumber = s.number
  leaves : ∀ c : Channel, (c.mmr s.runtime).leaves.map some =
    s.blocks.mapIdx fun i x => c.leafOf (UInt32.ofNat (i + 1)) x
  queues : ∀ x ∈ s.blocks, Reachable queueStep .genesis x.queue

/-- The two messages of the next block are those that its leaves would be made of. -/
private theorem nextBlock_leafOf {getRoot : Option H256} {parentHash : H256} {b : BlockStart}
    (h : s.nextBlock getRoot parentHash = some b) (c : Channel) :
    c.leafOf b.number ⟨s.queue, parentHash⟩ =
      some ⟨b.messages c.config.paraIdentifier, c.config.leafVersion, b.parent⟩ := by
  simp only [SenderState.nextBlock, Option.bind_eq_bind, Option.bind_eq_some_iff] at h
  obtain ⟨x, hx, y, hy, hb⟩ := h
  cases hb
  cases c with
  | paraA => simp [Channel.leafOf, Channel.config, hx]
  | paraB =>
    have hne : configParaB.paraIdentifier ≠ configParaA.paraIdentifier := by decide
    simp [Channel.leafOf, Channel.config, hy, hne]

private theorem mmr_initializeBlock {st : RuntimeState} (h : Twins st) (b : BlockStart) (c : Channel) :
    c.mmr (initializeBlock hashOf st b) =
      (c.mmr st).push ⟨b.messages c.config.paraIdentifier, c.config.leafVersion, b.parent⟩ b.number := by
  cases c with
  | paraA =>
    simp only [Channel.mmr, initializeBlock, leafData, h.configA]
    rfl
  | paraB =>
    simp only [Channel.mmr, initializeBlock, leafData, h.configB]
    rfl

private theorem Recorded.block (ht : Twins s.runtime) (hq : Reachable queueStep .genesis s.queue) (h : Recorded s)
    {getRoot : Option H256} {parentHash : H256}
    {b : BlockStart} (hb : s.nextBlock getRoot parentHash = some b) :
    Recorded { s with
      runtime := initializeBlock hashOf s.runtime b
      number := b.number
      blocks := s.blocks ++ [⟨s.queue, parentHash⟩] } := by
  have hnumber : b.number = UInt32.ofNat (s.blocks.length + 1) := by
    simp only [SenderState.nextBlock, Option.bind_eq_bind, Option.bind_eq_some_iff] at hb
    obtain ⟨_, -, _, -, hb⟩ := hb
    cases hb
    rw [UInt32.ofNat_add, h.number]
    rfl
  refine ⟨?_, ?_, ?_, ?_⟩
  · rw [List.length_append, List.length_singleton]
    exact hnumber
  · intro c
    rw [mmr_initializeBlock ht]
    rfl
  · intro c
    rw [mmr_initializeBlock ht, MmrState.push, List.map_append, List.map_singleton, h.leaves c, List.mapIdx_concat,
      ← hnumber, nextBlock_leafOf hb c]
  · intro x hx
    rcases List.mem_append.1 hx with hx | hx
    · exact h.queues x hx
    · obtain rfl := List.mem_singleton.1 hx
      exact hq

private theorem Recorded.of_runtimeStep {e : RuntimeEvent} {r : RuntimeState} (he : ∀ b, e ≠ .block b)
    (hr : runtimeStep env hashOf s.runtime e = some r) (h : Recorded s) : Recorded { s with runtime := r } := by
  cases e with
  | block b => exact absurd rfl (he b)
  | callParaA origin call =>
    cases hr
    exact { h with }
  | callParaB origin call =>
    cases hr
    exact { h with }

theorem Reachable.recorded (h : Reachable (senderStep env hashOf) .genesis s) : Recorded s := by
  induction h with
  | refl => exact ⟨rfl, fun c => by cases c <;> rfl, fun c => by cases c <;> rfl, by simp [SenderState.genesis]⟩
  | tail h _ hs ih =>
    rcases senderStep_cases hs with ⟨_, _, -, -, rfl⟩ | ⟨getRoot, parentHash, b, -, hb, rfl⟩ | ⟨e', r, he, hr, rfl⟩
    · exact { ih with }
    · exact ih.block (Reachable.twins (Reachable.runtime h)) (Reachable.queue h) hb
    · exact ih.of_runtimeStep he hr

/-! ### The leaf of a block -/

theorem Recorded.length_leaves (h : Recorded s) (c : Channel) :
    (c.mmr s.runtime).leaves.length = s.blocks.length := by
  have hlength := congrArg List.length (h.leaves c)
  rwa [List.length_map, List.length_mapIdx] at hlength

/-- The leaf at an index is the one that was made of what the block found. -/
private theorem Recorded.getElem?_leaves (h : Recorded s) (c : Channel) (i : ℕ) :
    ((c.mmr s.runtime).leaves[i]?).map some =
      (s.blocks[i]?).map fun x => c.leafOf (UInt32.ofNat (i + 1)) x := by
  have hi := congrArg (fun ls => ls[i]?) (h.leaves c)
  simpa only [List.getElem?_map, List.getElem?_mapIdx] using hi

private theorem Recorded.exists_leafOf (h : Recorded s) (c : Channel) {i : ℕ} (hi : i < s.blocks.length) :
    ∃ l, c.leafOf (UInt32.ofNat (i + 1)) s.blocks[i] = some l := by
  have hget := h.getElem?_leaves c i
  have hi' : i < (c.mmr s.runtime).leaves.length := by rwa [h.length_leaves c]
  rw [List.getElem?_eq_getElem hi, List.getElem?_eq_getElem hi'] at hget
  exact ⟨_, (Option.some.inj hget).symm⟩

/-- As long as numbers do not run out, block `n` is the `n`-th one. -/
private theorem Recorded.leafAt_iff (h : Recorded s) (hlen : s.blocks.length < 2 ^ 32) (c : Channel) (n : UInt32)
    (l : MmrLeaf) :
    (c.mmr s.runtime).leafAt n = some l ↔
      0 < n.toNat ∧ ∃ x, s.blocks[n.toNat - 1]? = some x ∧ c.leafOf n x = some l := by
  have hnumber : (c.mmr s.runtime).blockNumber.toNat = s.blocks.length := by
    rw [h.last c, h.number, UInt32.toNat_ofNat_of_lt' hlen]
  have hget : ∀ i, (c.mmr s.runtime).leaves[i]? = some l ↔
      ∃ x, s.blocks[i]? = some x ∧ c.leafOf (UInt32.ofNat (i + 1)) x = some l := by
    intro i
    have hi := h.getElem?_leaves c i
    constructor
    · intro hl
      rw [hl, Option.map_some, eq_comm, Option.map_eq_some_iff] at hi
      exact hi
    · rintro ⟨x, hx, hl⟩
      rw [hx, Option.map_some, hl] at hi
      obtain ⟨l', hl', heq⟩ := Option.map_eq_some_iff.1 hi
      rw [hl', Option.some.inj heq]
  simp only [MmrState.leafAt, h.length_leaves c, hnumber]
  by_cases hn : n.toNat ≤ s.blocks.length ∧ s.blocks.length < n.toNat + s.blocks.length
  · have hindex : s.blocks.length + n.toNat - (s.blocks.length + 1) = n.toNat - 1 := by omega
    have hsucc : UInt32.ofNat (n.toNat - 1 + 1) = n := by
      rw [Nat.sub_add_cancel (by omega), UInt32.ofNat_toNat]
    have hpos : 0 < n.toNat := by omega
    rw [if_pos hn, hindex, hget, hsucc]
    simp only [hpos, true_and]
  · rw [if_neg hn]
    constructor
    · intro hl
      cases hl
    · rintro ⟨hpos, x, hx, -⟩
      have := (List.getElem?_eq_some_iff.1 hx).1
      omega

/-- The messages of a leaf in terms of the pages that the queue held. -/
theorem messagesFor_eq_some {q : OutboundQueue} (hq : Reachable queueStep .genesis q) {blockHash : H256} {p : ParaId}
    {m : Vec UInt8} (h : messagesFor q blockHash p = some m) :
    m.1 = [1, 2, 3] ++ if (q p).firstIndex = 0 then (q p).stored.flatten else [] := by
  obtain ⟨b, hb, hif⟩ := Option.bind_eq_some_iff.1 h
  have hm : m.1 = b := by
    split at hif
    · cases hif
      rfl
    · cases hif
  have hw := Reachable.window hq p
  by_cases hfirst : (q p).firstIndex = 0
  · rw [getXcmpMessages_of_zero hw hfirst, Option.some.injEq] at hb
    rw [hm, ← hb, if_pos hfirst]
  · rw [getXcmpMessages_of_ne_zero hw hfirst, Option.some.injEq] at hb
    rw [hm, ← hb, if_neg hfirst, List.append_nil]

/-- Blocks are never taken back. -/
theorem Reachable.blocks_prefix (h : Reachable (senderStep env hashOf) s s') : s.blocks <+: s'.blocks := by
  refine h.invariant (I := fun s' => s.blocks <+: s'.blocks) (List.prefix_refl _) ?_
  intro s₁ e s₂ ih _ hs
  rcases senderStep_cases hs with ⟨_, _, -, -, rfl⟩ | ⟨_, _, _, -, -, rfl⟩ | ⟨_, _, -, -, rfl⟩
  · exact ih
  · exact ih.trans (List.prefix_append _ _)
  · exact ih

/-- What a leaf of a channel says: the pages that the queue held for the recipient of the channel when the block was
made, from index `0` on, and the block before as its parent. -/
def Channel.LeafMadeAt (c : Channel) (n : UInt32) (x : SenderBlock) (l : MmrLeaf) : Prop :=
  l.xcmpMsgs.1 = [1, 2, 3] ++ (if (x.queue c.config.paraIdentifier).firstIndex = 0 then
      (x.queue c.config.paraIdentifier).stored.flatten else []) ∧
    l.version = 0 ∧ l.parentNumberAndHash = (n - 1, x.parentHash)

private theorem Channel.leafMadeAt_of_leafOf {c : Channel} {n : UInt32} (hn : 0 < n.toNat) {x : SenderBlock}
    (hx : Reachable queueStep .genesis x.queue) {l : MmrLeaf} (h : c.leafOf n x = some l) : c.LeafMadeAt n x l := by
  obtain ⟨m, hm, rfl⟩ := Option.map_eq_some_iff.1 h
  have hne : n ≠ 0 := by
    rintro rfl
    exact absurd hn (by decide)
  refine ⟨messagesFor_eq_some hx hm, by cases c <;> rfl, ?_⟩
  simp only [parentNumberAndHash, hne, ↓reduceIte]

theorem Recorded.leafMadeAt (h : Recorded s) (hlen : s.blocks.length < 2 ^ 32) (c : Channel) {n : UInt32} {l : MmrLeaf}
    (hl : (c.mmr s.runtime).leafAt n = some l) : ∃ x, s.blocks[n.toNat - 1]? = some x ∧ c.LeafMadeAt n x l := by
  obtain ⟨hpos, x, hx, hleaf⟩ := (h.leafAt_iff hlen c n l).1 hl
  exact ⟨x, hx, Channel.leafMadeAt_of_leafOf hpos (h.queues x (List.mem_of_getElem? hx)) hleaf⟩

/-- Every leaf was made at some block. -/
theorem Recorded.exists_leafMadeAt (h : Recorded s) (hlen : s.blocks.length < 2 ^ 32) (c : Channel) {l : MmrLeaf}
    (hl : l ∈ (c.mmr s.runtime).leaves) : ∃ n x, s.blocks[n.toNat - 1]? = some x ∧ c.LeafMadeAt n x l := by
  obtain ⟨i, hi⟩ := List.mem_iff_getElem?.1 hl
  have hget := h.getElem?_leaves c i
  rw [hi, Option.map_some, eq_comm, Option.map_eq_some_iff] at hget
  obtain ⟨x, hx, hleaf⟩ := hget
  have hlt : i + 1 < 2 ^ 32 := by
    have := (List.getElem?_eq_some_iff.1 hx).1
    omega
  have hn : (UInt32.ofNat (i + 1)).toNat = i + 1 := UInt32.toNat_ofNat_of_lt' hlt
  refine ⟨UInt32.ofNat (i + 1), x, ?_, ?_⟩
  · rwa [hn, Nat.add_sub_cancel]
  · exact Channel.leafMadeAt_of_leafOf (by omega) (h.queues x (List.mem_of_getElem? hx)) hleaf

/-- In every run of fewer than `2 ^ 32` blocks both ranges have one leaf for each block, so that the one leaf count of
the runtime interface is right for both.  The leaf of block `n` is made of the pages that the queue then held for the
recipient of the channel, and no later step changes it. -/
theorem sender_leaves (env : Externals) (hashOf : Bytes → H256) (s : SenderState)
    (h : Reachable (senderStep env hashOf) .genesis s) (hlen : s.blocks.length < 2 ^ 32) (c : Channel) :
    mmrLeafCountApi s.runtime = .ok (c.mmr s.runtime).leaves.length ∧
      (∀ n, (∃ l, (c.mmr s.runtime).leafAt n = some l) ↔ 0 < n.toNat ∧ n.toNat ≤ s.blocks.length) ∧
      (∀ n l, (c.mmr s.runtime).leafAt n = some l →
        ∃ x, s.blocks[n.toNat - 1]? = some x ∧ c.LeafMadeAt n x l) ∧
      ∀ s', Reachable (senderStep env hashOf) s s' → s'.blocks.length < 2 ^ 32 →
        ∀ n l, (c.mmr s.runtime).leafAt n = some l → (c.mmr s'.runtime).leafAt n = some l := by
  have hrec := Reachable.recorded h
  refine ⟨?_, ?_, ?_, ?_⟩
  · rw [hrec.length_leaves c, mmrLeafCountApi]
    exact congrArg _ (hrec.length_leaves .paraA)
  · intro n
    constructor
    · rintro ⟨l, hl⟩
      obtain ⟨hpos, x, hx, -⟩ := (hrec.leafAt_iff hlen c n l).1 hl
      have := (List.getElem?_eq_some_iff.1 hx).1
      exact ⟨hpos, by omega⟩
    · rintro ⟨hpos, hle⟩
      have hlt : n.toNat - 1 < s.blocks.length := by omega
      obtain ⟨l, hl⟩ := hrec.exists_leafOf c hlt
      rw [Nat.sub_add_cancel hpos, UInt32.ofNat_toNat] at hl
      exact ⟨l, (hrec.leafAt_iff hlen c n l).2 ⟨hpos, _, List.getElem?_eq_getElem hlt, hl⟩⟩
  · intro n l hl
    exact hrec.leafMadeAt hlen c hl
  · intro s' hs' hlen' n l hl
    obtain ⟨hpos, x, hx, hleaf⟩ := (hrec.leafAt_iff hlen c n l).1 hl
    refine ((Reachable.recorded (h.trans hs')).leafAt_iff hlen' c n l).2 ⟨hpos, x, ?_, hleaf⟩
    obtain ⟨later, hlater⟩ := Reachable.blocks_prefix hs'
    rw [← hlater, List.getElem?_append_left (List.getElem?_eq_some_iff.1 hx).1]
    exact hx

/-- A page is sent to parachain `1`, a block is made, the page is taken and another block is made. -/
def twoBlocks : SenderState :=
  (run (senderStep (.documented xcmrRoot) keccak256) .genesis
    [.queue (.sendPage 1 [7]), .block none H256.zero, .queue (.take 1), .block none (.repeatByte 1)]).getD .genesis

theorem reachable_twoBlocks : Reachable (senderStep (.documented xcmrRoot) keccak256) .genesis twoBlocks :=
  reaches_of_run [.queue (.sendPage 1 [7]), .block none H256.zero, .queue (.take 1), .block none (.repeatByte 1)] rfl

theorem sender_leaves_twoBlocks :
    twoBlocks.blocks.length = 2 ∧
      (∃ l, (Channel.paraA.mmr twoBlocks.runtime).leafAt 1 = some l ∧ l.xcmpMsgs.1 = [1, 2, 3, 7]) ∧
      ∀ n l, (Channel.paraA.mmr twoBlocks.runtime).leafAt n = some l →
        ∃ x, twoBlocks.blocks[n.toNat - 1]? = some x ∧ Channel.paraA.LeafMadeAt n x l :=
  ⟨by decide +kernel, ⟨_, rfl, by decide +kernel⟩,
    (sender_leaves _ _ _ reachable_twoBlocks (by decide +kernel) .paraA).2.2.1⟩

end XcmpPrototype
