import XcmpPrototype.HalfRecorded
import XcmpPrototype.NewestEntry

/-!
# A collector and its blocks

A collector takes the best blocks of a chain one after the other.  For each block it makes several requests, and a
request without an answer ends not the turn but the collector: the task returns, and nobody looks at its result.  So
with all locks free the entries of a block are stored if all requests for the blocks before it had their answers
(`collection_continues`), and after the first block for which this was not so nothing is stored any more.
-/

open Scale

namespace XcmpPrototype.Relayer

variable {env : Externals}

/-! ### Entries of a map -/

section Entry

variable {κ β : Type} {cmp : κ → κ → Ordering}

/-- The map with one more entry, if there is one. -/
def insertEntry (m : Std.TreeMap κ β cmp) : Option (κ × β) → Std.TreeMap κ β cmp
  | none => m
  | some e => m.insert e.1 e.2

variable [Std.TransCmp cmp] [Std.LawfulEqCmp cmp]

theorem getElem?_insertEntry (m : Std.TreeMap κ β cmp) (entry : Option (κ × β)) (k : κ) :
    (insertEntry m entry)[k]? = m[k]? ∨ ∃ v, entry = some (k, v) ∧ (insertEntry m entry)[k]? = some v := by
  cases entry with
  | none => exact Or.inl rfl
  | some e =>
    by_cases hk : e.1 = k
    · subst hk
      exact Or.inr ⟨e.2, rfl, Std.TreeMap.getElem?_insert_self⟩
    · have hne : cmp e.1 k ≠ .eq := fun h => hk (Std.LawfulEqCmp.eq_of_compare h)
      left
      rw [insertEntry, Std.TreeMap.getElem?_insert, if_neg hne]

end Entry

/-! ### What a block offers -/

/-- A best block, with the answers of the node to the requests that are made for it. -/
structure BestBlock where
  block : Block
  replies : (r : Request) → Option r.Result

namespace BestBlock

variable (x : BestBlock)

/-- The entry for `LEAVES_BEEFY_MMR_MAP`, if the requests for it succeed and its leaf decodes. -/
def leafEntry : Option LeafEntry := do
  let root ← Option.join (x.replies (.mmrRoot none (some receiverChannelId)))
  let _rpcHeader ← Option.join (x.replies (.getHeader none))
  let proof ← Option.join
    (x.replies (.generateProof x.block.number.toUInt64 (some x.block.hash) (some receiverChannelId)))
  let beefyLeaves ← decodeLeaves proof.leaves
  let leaf ← beefyLeaves.head?
  let mmrLeaf ← BeefyMmrLeaf.codec.decode leaf
  return ((mmrLeaf.1.leafExtra, x.block.number), (root, proof))

/-- The entry for `PARA_HEADERS_MAP`, if the request for it succeeds and the head carries a root other than zero. -/
def headerEntry (env : Externals) : Option (H256 × ParaMerkleProof) := do
  let paraMerkleProof ← Option.join (x.replies (.getParaHeadsProof x.block.hash 1000))
  let paraHeaderRoot ← extractXcmpChannelRoot env paraMerkleProof.leaf
  if paraHeaderRoot = H256.zero then none else some (paraHeaderRoot, paraMerkleProof)

/-- The entry for `MSG_ROOT_MAP`, if the requests for it succeed. -/
def msgEntry : Option (H256 × LeavesProof) := do
  let msgRoot ← Option.join (x.replies (.mmrRoot (some x.block.hash) (some receiverChannelId)))
  let msgProof ← Option.join
    (x.replies (.generateProof x.block.number.toUInt64 (some x.block.hash) (some receiverChannelId)))
  return (msgRoot, msgProof)

/-- The channel proof, if the request for it succeeds. -/
def channelProof : Option ChannelMerkleProof :=
  Option.join (x.replies (.getXcmpChannelsProof x.block.hash receiverChannelId))

/-! ### One turn -/

/-- The maps after a turn of the relay collector, and whether it goes on. -/
def relayTurn (env : Externals) (m : Maps) : Maps × Bool :=
  match x.leafEntry with
  | none => (m, false)
  | some e =>
    let m := Access.write m (.insertLeaf e.1.1 e.1.2 e.2.1 e.2.2)
    match x.headerEntry env with
    | none => (m, false)
    | some e => (Access.write m (.insertParaHeader e.1 e.2), true)

/-- The maps after a turn of the para collector, and whether it goes on. -/
def paraTurn (m : Maps) : Maps × Bool :=
  match x.msgEntry with
  | none => (m, false)
  | some e =>
    let m := Access.write m (.insertMsgRoot e.1 e.2)
    match x.channelProof with
    | none => (m, false)
    | some p =>
      let m := Access.write m (.insertChannelRootProof p.root p)
      (if m.msgRootMap.contains p.leaf then Access.write m (.insertMsgRootChannel e.1 p) else m, true)

/-- The entry for `MSG_ROOT_CHANNEL_MERKLE_MAP`, if the leaf of the channel proof is pending. -/
def channelEntry (m : Maps) : Option (H256 × ChannelMerkleProof) := do
  let e ← x.msgEntry
  let p ← x.channelProof
  if (m.msgRootMap.insert e.1 e.2).contains p.leaf then some (e.1, p) else none

private theorem relayTurn_leaves (m : Maps) :
    (x.relayTurn env m).1.leavesBeefyMmrMap = insertEntry m.leavesBeefyMmrMap x.leafEntry := by
  unfold relayTurn
  cases x.leafEntry with
  | none => rfl
  | some e => cases x.headerEntry env <;> rfl

private theorem relayTurn_headers (m : Maps) :
    (x.relayTurn env m).1.paraHeadersMap =
      insertEntry m.paraHeadersMap (x.leafEntry.bind fun _ => x.headerEntry env) := by
  unfold relayTurn
  cases x.leafEntry with
  | none => rfl
  | some e => cases x.headerEntry env <;> rfl

private theorem paraTurn_msgRoots (m : Maps) :
    (x.paraTurn m).1.msgRootMap = insertEntry m.msgRootMap x.msgEntry := by
  unfold paraTurn
  cases x.msgEntry with
  | none => rfl
  | some e =>
    cases x.channelProof with
    | none => rfl
    | some p =>
      simp only
      split <;> rfl

private theorem paraTurn_channels (m : Maps) :
    (x.paraTurn m).1.msgRootChannelMerkleMap = insertEntry m.msgRootChannelMerkleMap (x.channelEntry m) := by
  unfold paraTurn channelEntry
  cases x.msgEntry with
  | none => rfl
  | some e =>
    cases x.channelProof with
    | none => rfl
    | some p =>
      simp only [Option.bind_eq_bind, Option.bind_some]
      rw [apply_ite Maps.msgRootChannelMerkleMap, apply_ite (insertEntry m.msgRootChannelMerkleMap)]
      rfl

end BestBlock

/-- A program that has ended, with success or not. -/
def HasEnded (ok : Bool) (p : Code Unit) : Prop := if ok then p = .ret () else ∃ e, p = .throw e

private theorem alone_collectRelayData (env : Externals) (x : BestBlock) (s : Shared) :
    ∃ h p, Prog.alone (fun _ => false) (freeReply fun _ => x.replies) s [] (collectRelayData env x.block) =
      ({ s with maps := (x.relayTurn env s.maps).1 }, h, p) ∧ HasEnded (x.relayTurn env s.maps).2 p := by
  simp only [collectRelayData, generateMmrProof, first, request, tryLock, orError, bind_assoc, Prog.alone_query_bind,
    Prog.alone_ofOption_bind, Prog.alone_check_bind, Prog.alone_pure, freeReply, BestBlock.relayTurn,
    BestBlock.leafEntry, BestBlock.headerEntry, Option.bind_eq_bind]
  -- a request without an answer, or an answer that does not decode, ends both sides
  rcases (x.replies (.mmrRoot none (some receiverChannelId))).join with _ | root
  · exact ⟨_, _, rfl, _, rfl⟩
  rcases (x.replies (.getHeader none)).join with _ | header
  · exact ⟨_, _, rfl, _, rfl⟩
  rcases (x.replies (.generateProof x.block.number.toUInt64 (some x.block.hash) (some receiverChannelId))).join with
    _ | proof
  · exact ⟨_, _, rfl, _, rfl⟩
  simp only [Option.bind_some]
  rcases decodeLeaves proof.leaves with _ | leaves
  · exact ⟨_, _, rfl, _, rfl⟩
  simp only [Option.bind_some]
  rcases leaves.head? with _ | leaf
  · exact ⟨_, _, rfl, _, rfl⟩
  simp only [Option.bind_some]
  rcases BeefyMmrLeaf.codec.decode leaf with _ | mmrLeaf
  · exact ⟨_, _, rfl, _, rfl⟩
  rcases (x.replies (.getParaHeadsProof x.block.hash 1000)).join with _ | paraMerkleProof
  · exact ⟨_, _, rfl, _, rfl⟩
  simp only [Option.bind_some]
  rcases extractXcmpChannelRoot env paraMerkleProof.leaf with _ | root
  · exact ⟨_, _, rfl, _, rfl⟩
  by_cases hzero : root = H256.zero
  · simp only [hzero, Option.bind_some, Option.getD_some, ne_eq, not_true_eq_false, decide_false, Bool.false_eq_true,
      ↓reduceIte]
    exact ⟨_, _, rfl, _, rfl⟩
  · simp only [hzero, Option.bind_some, Option.getD_some, ne_eq, not_false_eq_true, decide_true, ↓reduceIte]
    exact ⟨_, _, rfl, rfl⟩

private theorem alone_collectParaData (x : BestBlock) (s : Shared) :
    ∃ h p, Prog.alone (fun _ => false) (freeReply fun _ => x.replies) s [] (collectParaData x.block) =
      ({ s with maps := (x.paraTurn s.maps).1 }, h, p) ∧ HasEnded (x.paraTurn s.maps).2 p := by
  simp only [collectParaData, generateMmrRoot, generateMmrProof, request, tryLock, orError, bind_assoc,
    Prog.alone_query_bind, Prog.alone_ofOption_bind, Prog.alone_ite, Prog.alone_pure]
  simp only [freeReply, Access.read, Option.getD_some, BestBlock.paraTurn, BestBlock.msgEntry, BestBlock.channelProof,
    Option.bind_eq_bind]
  rcases (x.replies (.mmrRoot (some x.block.hash) (some receiverChannelId))).join with _ | msgRoot
  · exact ⟨_, _, rfl, _, rfl⟩
  rcases (x.replies (.generateProof x.block.number.toUInt64 (some x.block.hash) (some receiverChannelId))).join with
    _ | msgProof
  · exact ⟨_, _, rfl, _, rfl⟩
  rcases (x.replies (.getXcmpChannelsProof x.block.hash receiverChannelId)).join with _ | proof
  · exact ⟨_, _, rfl, _, rfl⟩
  simp only [Option.bind_some, Option.pure_def]
  split
  · rename_i hmatch
    simp only [hmatch, ↓reduceIte]
    exact ⟨_, _, rfl, rfl⟩
  · rename_i hmatch
    simp only [hmatch, Bool.false_eq_true, ↓reduceIte]
    exact ⟨_, _, rfl, rfl⟩

/-! ### All blocks of a collector -/

inductive Collector where
  | relay
  | para
  deriving DecidableEq

namespace Collector

def task : Collector → TaskId
  | relay => .relay
  | para => .para

def turn (env : Externals) : Collector → BestBlock → Maps → Maps × Bool
  | relay, x => x.relayTurn env
  | para, x => x.paraTurn

/-- All requests that a collector makes for a block have their answers. -/
def Answered (env : Externals) : Collector → BestBlock → Prop
  | relay, x => x.leafEntry.isSome ∧ (x.headerEntry env).isSome
  | para, x => x.msgEntry.isSome ∧ x.channelProof.isSome

/-- The collector takes the blocks of a subscription, with all locks free. -/
def consume (env : Externals) (c : Collector) (s : State) (blocks : List BestBlock) : State :=
  (machine env).consume c.task s (blocks.map fun x => (x.block, freeReply fun _ => x.replies))

variable {c : Collector} {s : State} {x : BestBlock} {blocks : List BestBlock}

theorem turn_snd_iff (m : Maps) : (c.turn env x m).2 = true ↔ c.Answered env x := by
  cases c with
  | relay =>
    simp only [turn, BestBlock.relayTurn, Answered]
    cases x.leafEntry with
    | none => simp
    | some e => cases x.headerEntry env <;> simp
  | para =>
    simp only [turn, BestBlock.paraTurn, Answered]
    cases x.msgEntry with
    | none => simp
    | some e => cases x.channelProof <;> simp

/-- A turn does to the maps what it says, and the collector goes on if all requests had their answers. -/
theorem perform_turn (env : Externals) (c : Collector) (s : State) (x : BestBlock) :
    ((machine env).perform (freeReply fun _ => x.replies) s c.task x.block).shared.maps =
        (c.turn env x s.shared.maps).1 ∧
      ((machine env).perform (freeReply fun _ => x.replies) s c.task x.block).tasks c.task =
        if (c.turn env x s.shared.maps).2 then .idle else .stopped := by
  have halone : ∃ h p, Prog.alone (fun _ => false) (freeReply fun _ => x.replies) s.shared []
      ((machine env).body c.task x.block) = ({ s.shared with maps := (c.turn env x s.shared.maps).1 }, h, p) ∧
        HasEnded (c.turn env x s.shared.maps).2 p := by
    cases c with
    | relay => exact alone_collectRelayData env x s.shared
    | para => exact alone_collectParaData x s.shared
  obtain ⟨h, p, hp, hended⟩ := halone
  cases hok : (c.turn env x s.shared.maps).2 with
  | true =>
    rw [hok] at hended
    cases hended
    obtain ⟨hshared, htask⟩ := Machine.perform_of_ret hp
    exact ⟨by rw [hshared], htask⟩
  | false =>
    rw [hok] at hended
    obtain ⟨e, rfl⟩ := hended
    obtain ⟨hshared, htask⟩ := Machine.perform_of_throw (by cases c <;> rfl) hp
    exact ⟨by rw [hshared], htask⟩

theorem consume_append (before : List BestBlock) :
    c.consume env s (before ++ blocks) = c.consume env (c.consume env s before) blocks := by
  rw [consume, List.map_append, Machine.consume_append]
  rfl

private theorem consume_cons (hi : s.tasks c.task = .idle) :
    c.consume env s (x :: blocks) =
      c.consume env ((machine env).perform (freeReply fun _ => x.replies) s c.task x.block) blocks :=
  Machine.consume_cons_of_idle hi

theorem reachable_consume : Reachable (machine env).step s (c.consume env s blocks) := by
  apply Machine.reachable_consume
  intro x hx
  obtain ⟨y, -, rfl⟩ := List.mem_map.1 hx
  exact handle_freeReply _

/-- A collector goes on exactly as long as all requests have their answers. -/
private theorem consume_tasks (env : Externals) (blocks : List BestBlock) (hi : s.tasks c.task = .idle) :
    ((∀ y ∈ blocks, c.Answered env y) → (c.consume env s blocks).tasks c.task = .idle) ∧
      ((∃ y ∈ blocks, ¬ c.Answered env y) → (c.consume env s blocks).tasks c.task = .stopped) := by
  induction blocks generalizing s with
  | nil =>
    refine ⟨fun _ => hi, ?_⟩
    rintro ⟨y, hy, -⟩
    cases hy
  | cons x blocks ih =>
    have htask := (perform_turn env c s x).2
    rw [consume_cons hi]
    by_cases hx : c.Answered env x
    · rw [(turn_snd_iff s.shared.maps).2 hx] at htask
      obtain ⟨hall, hsome⟩ := ih htask
      refine ⟨fun h => hall fun y hy => h y (List.mem_cons_of_mem _ hy), ?_⟩
      rintro ⟨y, hy, hnot⟩
      rcases List.mem_cons.1 hy with rfl | hy
      · exact absurd hx hnot
      · exact hsome ⟨y, hy, hnot⟩
    · have hfalse : (c.turn env x s.shared.maps).2 = false := by
        rw [← Bool.not_eq_true, turn_snd_iff]
        exact hx
      rw [hfalse] at htask
      refine ⟨fun h => absurd (h x List.mem_cons_self) hx, fun _ => ?_⟩
      rw [consume, Machine.consume_of_stopped htask]
      exact htask

/-- What every turn keeps holds at the end. -/
private theorem consume_invariant {P : Maps → Prop} (hturn : ∀ y ∈ blocks, ∀ m, P m → P (c.turn env y m).1)
    (h : P s.shared.maps) : P (c.consume env s blocks).shared.maps := by
  induction blocks generalizing s with
  | nil => exact h
  | cons x blocks ih =>
    cases hi : s.tasks c.task with
    | idle =>
      rw [consume_cons hi]
      apply ih fun y hy => hturn y (List.mem_cons_of_mem _ hy)
      rw [(perform_turn env c s x).1]
      exact hturn x List.mem_cons_self _ h
    | running b hist p =>
      simp only [consume, List.map_cons, Machine.consume, hi]
      exact h
    | stopped =>
      rw [consume, Machine.consume_of_stopped hi]
      exact h

/-- A lookup finds `v`, or what one of the later blocks has put in its place. -/
def Finds {β : Type} (found : Option β) (v : β) (offers : BestBlock → β → Prop) (later : List BestBlock) : Prop :=
  ∃ v', found = some v' ∧ (v' = v ∨ ∃ y ∈ later, offers y v')

/-- Each turn adds at most one entry to a map.  The entry of a block that the collector gets to is found at the end, or
one of a later block. -/
private theorem finds_consume {κ β : Type} {cmp : κ → κ → Ordering} [Std.TransCmp cmp] [Std.LawfulEqCmp cmp]
    (c : Collector) (map : Maps → Std.TreeMap κ β cmp) {entry : BestBlock → Maps → Option (κ × β)}
    {offers : BestBlock → β → Prop} {e : κ × β}
    (hturn : ∀ y m, map (c.turn env y m).1 = insertEntry (map m) (entry y m))
    (hoffers : ∀ y m v, entry y m = some (e.1, v) → offers y v) (hx : ∀ m, entry x m = some e)
    (hi : s.tasks c.task = .idle) {before later : List BestBlock} (hall : ∀ y ∈ before, c.Answered env y) :
    Finds ((map (c.consume env s (before ++ x :: later)).shared.maps)[e.1]?) e.2 offers later := by
  rw [consume_append, consume_cons ((consume_tasks env before hi).1 hall)]
  refine consume_invariant (P := fun m => Finds ((map m)[e.1]?) e.2 offers later) ?_ ?_
  · rintro y hy m ⟨v, hv, hfrom⟩
    show Finds ((map (c.turn env y m).1)[e.1]?) e.2 offers later
    rw [hturn]
    rcases getElem?_insertEntry (map m) (entry y m) e.1 with h | ⟨v', hentry, h⟩
    · exact ⟨v, h.trans hv, hfrom⟩
    · exact ⟨v', h, Or.inr ⟨y, hy, hoffers y m v' hentry⟩⟩
  · rw [(perform_turn env c _ x).1, hturn, hx]
    exact ⟨e.2, Std.TreeMap.getElem?_insert_self, Or.inl rfl⟩

/-- A collector that has stopped gets to no further block. -/
private theorem consume_eq_of_not_answered (hi : s.tasks c.task = .idle) {before : List BestBlock}
    (hsome : ∃ y ∈ before, ¬ c.Answered env y) : c.consume env s (before ++ blocks) = c.consume env s before := by
  rw [consume_append]
  exact Machine.consume_of_stopped ((consume_tasks env before hi).2 hsome)

end Collector

open Collector in
/-- With all locks free, the entries of a block for which all requests succeed are found after the whole sequence, or
what a later block has put in their place, if all requests for the blocks before it succeeded too.  If one of them did
not, nothing is stored after the blocks before. -/
theorem collection_continues (env : Externals) (s : State) (before later : List BestBlock) (x : BestBlock) :
    (∀ e e', s.tasks .relay = .idle → x.leafEntry = some e → x.headerEntry env = some e' →
      ((∀ y ∈ before, relay.Answered env y) →
        Finds ((relay.consume env s (before ++ x :: later)).shared.maps.leavesBeefyMmrMap[e.1]?) e.2
          (fun y v => y.leafEntry = some (e.1, v)) later ∧
        Finds ((relay.consume env s (before ++ x :: later)).shared.maps.paraHeadersMap[e'.1]?) e'.2
          (fun y p => y.headerEntry env = some (e'.1, p)) later) ∧
      ((∃ y ∈ before, ¬ relay.Answered env y) →
        relay.consume env s (before ++ x :: later) = relay.consume env s before)) ∧
    ∀ e p, s.tasks .para = .idle → x.msgEntry = some e → x.channelProof = some p → p.leaf = e.1 →
      ((∀ y ∈ before, para.Answered env y) →
        Finds ((para.consume env s (before ++ x :: later)).shared.maps.msgRootMap[e.1]?) e.2
          (fun y v => y.msgEntry = some (e.1, v)) later ∧
        Finds ((para.consume env s (before ++ x :: later)).shared.maps.msgRootChannelMerkleMap[e.1]?) p
          (fun y p => (∃ v, y.msgEntry = some (e.1, v)) ∧ y.channelProof = some p) later) ∧
      ((∃ y ∈ before, ¬ para.Answered env y) →
        para.consume env s (before ++ x :: later) = para.consume env s before) := by
  refine ⟨?_, ?_⟩
  · intro e e' hi hleaf hheader
    refine ⟨fun hall => ⟨?_, ?_⟩, fun hsome => consume_eq_of_not_answered hi hsome⟩
    · exact finds_consume relay Maps.leavesBeefyMmrMap (fun y m => y.relayTurn_leaves m) (fun _ _ _ h => h)
        (fun _ => hleaf) hi hall
    · refine finds_consume relay Maps.paraHeadersMap (fun y m => y.relayTurn_headers m) ?_ ?_ hi hall
      · intro y m p hentry
        obtain ⟨_, -, hp⟩ := Option.bind_eq_some_iff.1 hentry
        exact hp
      · intro m
        rw [hleaf, Option.bind_some, hheader]
  · intro e p hi hmsg hproof hown
    refine ⟨fun hall => ⟨?_, ?_⟩, fun hsome => consume_eq_of_not_answered hi hsome⟩
    · exact finds_consume para Maps.msgRootMap (fun y m => y.paraTurn_msgRoots m) (fun _ _ _ h => h) (fun _ => hmsg) hi
        hall
    · refine finds_consume para Maps.msgRootChannelMerkleMap (e := (e.1, p)) (fun y m => y.paraTurn_channels m) ?_ ?_ hi
        hall
      · intro y m p' hentry
        simp only [BestBlock.channelEntry, Option.bind_eq_bind, Option.bind_eq_some_iff] at hentry
        obtain ⟨e', he', p'', hp'', hif⟩ := hentry
        split at hif
        · obtain ⟨hroot, rfl⟩ := Prod.mk.inj (Option.some.inj hif)
          exact ⟨⟨e'.2, by rw [he', ← hroot]⟩, hp''⟩
        · cases hif
      · -- the leaf of the proof is the root that was just inserted
        intro m
        simp only [BestBlock.channelEntry, hmsg, hproof, Option.bind_eq_bind, Option.bind_some, hown]
        exact if_pos Std.TreeMap.contains_insert_self

/-! ### Two blocks -/

def relayBest : BestBlock := ⟨relayBlock, relayNode H256.zero⟩

def nextRelayBest : BestBlock := ⟨⟨.repeatByte 0x16, 6⟩, relayNode H256.zero⟩

def paraBest : BestBlock := ⟨paraBlock, paraNode paraBlock (.repeatByte 0x21) H256.zero⟩

def nextParaBest : BestBlock :=
  ⟨⟨.repeatByte 0x30, 8⟩, paraNode ⟨.repeatByte 0x30, 8⟩ (.repeatByte 0x22) H256.zero⟩

open Collector in
theorem collection_continues_next :
    (∃ e e', nextRelayBest.leafEntry = some e ∧ nextRelayBest.headerEntry (.documented xcmrRoot) = some e' ∧
      Finds ((relay.consume (.documented xcmrRoot) (boot H256.zero)
        ([relayBest] ++ [nextRelayBest])).shared.maps.leavesBeefyMmrMap[e.1]?) e.2
          (fun y v => y.leafEntry = some (e.1, v)) [] ∧
      Finds ((relay.consume (.documented xcmrRoot) (boot H256.zero)
        ([relayBest] ++ [nextRelayBest])).shared.maps.paraHeadersMap[e'.1]?) e'.2
          (fun y p => y.headerEntry (.documented xcmrRoot) = some (e'.1, p)) []) ∧
    ∃ e p, nextParaBest.msgEntry = some e ∧ nextParaBest.channelProof = some p ∧ p.leaf = e.1 ∧
      Finds ((para.consume (.documented xcmrRoot) (boot H256.zero)
        ([paraBest] ++ [nextParaBest])).shared.maps.msgRootMap[e.1]?) e.2 (fun y v => y.msgEntry = some (e.1, v)) [] ∧
      Finds ((para.consume (.documented xcmrRoot) (boot H256.zero)
        ([paraBest] ++ [nextParaBest])).shared.maps.msgRootChannelMerkleMap[e.1]?) p
          (fun y p => (∃ v, y.msgEntry = some (e.1, v)) ∧ y.channelProof = some p) [] := by
  refine ⟨?_, ?_⟩
  · have hleaf : nextRelayBest.leafEntry.isSome = true := by decide +kernel
    have hheader : (nextRelayBest.headerEntry (.documented xcmrRoot)).isSome = true := by decide +kernel
    obtain ⟨e, he⟩ := Option.isSome_iff_exists.1 hleaf
    obtain ⟨e', he'⟩ := Option.isSome_iff_exists.1 hheader
    have hall : ∀ y ∈ [relayBest], relay.Answered (.documented xcmrRoot) y := by
      intro y hy
      rw [List.mem_singleton.1 hy]
      exact ⟨by decide +kernel, by decide +kernel⟩
    have hfinds := ((collection_continues (.documented xcmrRoot) (boot H256.zero) [relayBest] [] nextRelayBest).1 e e'
      rfl he he').1 hall
    exact ⟨e, e', he, he', hfinds⟩
  · have hmsg : nextParaBest.msgEntry =
        some (.repeatByte 0x22, leafProof ⟨.repeatByte 0x30, 8⟩ 1 H256.zero ⟨[1, 2, 3], by simp⟩) := rfl
    have hproof : nextParaBest.channelProof = some ⟨.repeatByte 0x12, [], 1, 0, .repeatByte 0x22⟩ := rfl
    have hall : ∀ y ∈ [paraBest], para.Answered (.documented xcmrRoot) y := by
      intro y hy
      rw [List.mem_singleton.1 hy]
      exact ⟨rfl, rfl⟩
    have hfinds := ((collection_continues (.documented xcmrRoot) (boot H256.zero) [paraBest] [] nextParaBest).2 _ _ rfl
      hmsg hproof rfl).1 hall
    exact ⟨_, _, hmsg, hproof, rfl, hfinds⟩

/-- A relay block in which the parachain is not onboarded yet. -/
def notOnboarded : BestBlock := ⟨⟨.repeatByte 0x0f, 4⟩, fun r => match r with
  | .getParaHeadsProof .. => some none
  | r => relayNode H256.zero r⟩

/-- A block for which the node of the parachain does not answer. -/
def unanswered : BestBlock := ⟨⟨.repeatByte 0x1f, 6⟩, fun _ => none⟩

open Collector in
/-- Each collector misses a block because of the one before it. -/
theorem collection_ends :
    (Reachable relayer.step (boot H256.zero)
        (relay.consume (.documented xcmrRoot) (boot H256.zero) [notOnboarded, relayBest]) ∧
      ∃ e e', relayBest.leafEntry = some e ∧ relayBest.headerEntry (.documented xcmrRoot) = some e' ∧
        e.1 ∉ (relay.consume (.documented xcmrRoot) (boot H256.zero)
          [notOnboarded, relayBest]).shared.maps.leavesBeefyMmrMap ∧
        e'.1 ∉ (relay.consume (.documented xcmrRoot) (boot H256.zero)
          [notOnboarded, relayBest]).shared.maps.paraHeadersMap) ∧
    Reachable relayer.step (boot H256.zero)
        (para.consume (.documented xcmrRoot) (boot H256.zero) [unanswered, paraBest]) ∧
      ∃ e p, paraBest.msgEntry = some e ∧ paraBest.channelProof = some p ∧ p.leaf = e.1 ∧
        e.1 ∉ (para.consume (.documented xcmrRoot) (boot H256.zero)
          [unanswered, paraBest]).shared.maps.msgRootMap ∧
        e.1 ∉ (para.consume (.documented xcmrRoot) (boot H256.zero)
          [unanswered, paraBest]).shared.maps.msgRootChannelMerkleMap := by
  refine ⟨⟨reachable_consume, ?_⟩, reachable_consume, ?_⟩
  · have hleaf : relayBest.leafEntry.any (fun e => e.1 ∉ (relay.consume (.documented xcmrRoot) (boot H256.zero)
        [notOnboarded, relayBest]).shared.maps.leavesBeefyMmrMap) = true := by decide +kernel
    have hheader : (relayBest.headerEntry (.documented xcmrRoot)).any (fun e =>
        e.1 ∉ (relay.consume (.documented xcmrRoot) (boot H256.zero)
          [notOnboarded, relayBest]).shared.maps.paraHeadersMap) = true := by decide +kernel
    obtain ⟨e, he, hnot⟩ := (Option.any_eq_true _ _).1 hleaf
    obtain ⟨e', he', hnot'⟩ := (Option.any_eq_true _ _).1 hheader
    exact ⟨e, e', he, he', of_decide_eq_true hnot, of_decide_eq_true hnot'⟩
  · exact ⟨_, _, rfl, rfl, rfl, by decide +kernel, by decide +kernel⟩

end XcmpPrototype.Relayer
