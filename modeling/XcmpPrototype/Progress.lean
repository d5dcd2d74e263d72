import XcmpPrototype.Acceptance
import XcmpPrototype.Collection
import XcmpPrototype.Draining
import XcmpPrototype.Provability

/-!
# All collected messages are submitted

The collectors and the generator take turns in some order, with all locks free and all requests answered.  A call of the
generator that comes too early fails and leaves everything as it was, and a root that it takes away is submitted.  So if
the data of all blocks fit together (`FitTogether`), then after as many further calls as the sender had blocks nothing
is pending any more, and for each of its blocks a proof was submitted, made of data of these blocks only
(`all_submitted`).  If these data are valid as well and the receiver has noted the roots of the relay blocks, it accepts
all that was submitted (`all_accepted`).
-/

open Scale

namespace XcmpPrototype.Relayer

variable {env : Externals}

/-! ### Maps that are filled with what is offered -/

section Filled

variable {κ β : Type} {cmp : κ → κ → Ordering} {m : Std.TreeMap κ β cmp}

/-- Every entry was offered, and there is one for every key that was. -/
structure Filled (m : Std.TreeMap κ β cmp) (offered : κ × β → Prop) : Prop where
  offered_of_get : ∀ k v, m[k]? = some v → offered (k, v)
  exists_of_offered : ∀ e, offered e → ∃ v, m[e.1]? = some v

variable {offered offered' : κ × β → Prop}

theorem Filled.congr (h : Filled m offered) (hiff : ∀ e, offered' e ↔ offered e) : Filled m offered' :=
  ⟨fun k v hv => (hiff _).2 (h.offered_of_get k v hv), fun e he => h.exists_of_offered e ((hiff e).1 he)⟩

theorem Filled.empty (hnone : ∀ e, ¬ offered e) [Std.TransCmp cmp] :
    Filled (∅ : Std.TreeMap κ β cmp) offered :=
  ⟨fun k v hv => by simp at hv, fun e he => absurd he (hnone e)⟩

theorem Filled.insertEntry [Std.TransCmp cmp] [Std.LawfulEqCmp cmp] (h : Filled m offered) (entry : Option (κ × β))
    (hiff : ∀ e, offered' e ↔ offered e ∨ entry = some e) : Filled (insertEntry m entry) offered' := by
  constructor
  · intro k v hv
    rcases getElem?_insertEntry m entry k with heq | ⟨v', hentry, heq⟩
    · exact (hiff _).2 (Or.inl (h.offered_of_get k v (heq.symm.trans hv)))
    · rw [heq, Option.some.injEq] at hv
      subst hv
      exact (hiff _).2 (Or.inr hentry)
  · intro e he
    rcases getElem?_insertEntry m entry e.1 with heq | ⟨v', -, heq⟩
    · rcases (hiff e).1 he with hold | hnew
      · rw [heq]
        exact h.exists_of_offered e hold
      · rw [hnew]
        exact ⟨e.2, Std.TreeMap.getElem?_insert_self⟩
    · exact ⟨v', heq⟩

end Filled

/-! ### Turns in any order -/

/-- A turn of one of the tasks, with the answers that it gets. -/
inductive WholeTurn where
  | collect (c : Collector) (x : BestBlock)
  | generate (b : Block) (nodes : Nodes)

namespace WholeTurn

/-- All that is asked for in a turn is answered. -/
def Answered (env : Externals) : WholeTurn → Prop
  | collect c x => c.Answered env x
  | generate _ nodes => ∀ best r, (nodes best r).isSome

def isPara : WholeTurn → Bool
  | collect .para _ => true
  | _ => false

/-- The task takes its turn, unless it has ended. -/
def take (env : Externals) (s : State) : WholeTurn → State
  | collect c x => c.consume env s [x]
  | generate b nodes => generatorCalls env s [(b, nodes)]

end WholeTurn

def takeTurns (env : Externals) (s : State) (turns : List WholeTurn) : State := turns.foldl (WholeTurn.take env) s

/-- The channel proof of a block under its root of messages. -/
def BestBlock.ownChannel (x : BestBlock) : Option (H256 × ChannelMerkleProof) := do
  let e ← x.msgEntry
  let p ← x.channelProof
  return (e.1, p)

/-- One of the blocks that the collector has taken has the entry. -/
def Offered {α : Type} (turns : List WholeTurn) (c : Collector) (entry : BestBlock → Option α) (e : α) : Prop :=
  ∃ x, .collect c x ∈ turns ∧ entry x = some e

/-- The data of the blocks fit together: a channel proof is for the root of messages of its own block, its root is
carried by a head in some relay block, and the root of these heads is in the BEEFY leaf of some relay block. -/
structure FitTogether (env : Externals) (turns : List WholeTurn) : Prop where
  own : ∀ e, Offered turns .para BestBlock.ownChannel e → e.2.leaf = e.1
  head : ∀ e, Offered turns .para BestBlock.ownChannel e →
    ∃ p, Offered turns .relay (·.headerEntry env) (e.2.root, p)
  leaf : ∀ e, Offered turns .relay (·.headerEntry env) e →
    ∃ n v, Offered turns .relay BestBlock.leafEntry ((e.2.root, n), v)

structure ProofsDecode (turns : List WholeTurn) : Prop where
  messages : ∀ e, Offered turns .para BestBlock.msgEntry e →
    (decodeLeaves e.2.leaves).isSome ∧ (decodeProof e.2.proof).isSome
  beefy : ∀ e, Offered turns .relay BestBlock.leafEntry e → (decodeProof e.2.2.proof).isSome

/-- All parts of a proof were offered by blocks of the turns. -/
structure Assembled (env : Externals) (turns : List WholeTurn) (p : XcmpProof) (beefyRoot : H256) : Prop where
  messages : ∃ v, Offered turns .para BestBlock.msgEntry (p.stage3.leaf, v) ∧ ReadFrom v p
  channel : Offered turns .para BestBlock.ownChannel (p.stage3.leaf, p.stage3)
  head : Offered turns .relay (·.headerEntry env) (p.stage3.root, p.stage2)
  leaf : ∃ n v, Offered turns .relay BestBlock.leafEntry ((p.stage2.root, n), (beefyRoot, v)) ∧
    decodeLeaves v.leaves = some p.stage1.2 ∧ decodeProof v.proof = some p.stage1.1

section Offered

variable {α : Type} {turns : List WholeTurn} {c : Collector} {x : BestBlock} {entry : BestBlock → Option α} {e : α}

private theorem Offered.mono {turns' : List WholeTurn} (h : Offered turns c entry e) (hsub : turns ⊆ turns') :
    Offered turns' c entry e := by
  obtain ⟨x, hx, he⟩ := h
  exact ⟨x, hsub hx, he⟩

private theorem not_offered_nil : ¬ Offered [] c entry e := by
  rintro ⟨x, hx, -⟩
  cases hx

private theorem offered_append {turns' : List WholeTurn} :
    Offered (turns ++ turns') c entry e ↔ Offered turns c entry e ∨ Offered turns' c entry e := by
  simp only [Offered, List.mem_append, or_and_right, exists_or]

private theorem offered_append_of_not {turns' : List WholeTurn} (h : ¬ Offered turns' c entry e) :
    Offered (turns ++ turns') c entry e ↔ Offered turns c entry e := by
  rw [offered_append, or_iff_left h]

private theorem offered_concat_collect :
    Offered (turns ++ [.collect c x]) c entry e ↔ Offered turns c entry e ∨ entry x = some e := by
  have hx : Offered [.collect c x] c entry e ↔ entry x = some e := by simp [Offered]
  rw [offered_append, hx]

private theorem offered_concat_of_ne {t : WholeTurn} (ht : ∀ x, t ≠ .collect c x) :
    Offered (turns ++ [t]) c entry e ↔ Offered turns c entry e := by
  apply offered_append_of_not
  rintro ⟨y, hy, -⟩
  exact ht y (List.mem_singleton.1 hy).symm

end Offered

/-! ### What every turn keeps -/

/-- The state after the turns in `turns`. -/
structure InProgress (env : Externals) (turns : List WholeTurn) (s : State) : Prop where
  idle : ∀ i, s.tasks i = .idle
  leaves : Filled s.shared.maps.leavesBeefyMmrMap (Offered turns .relay BestBlock.leafEntry)
  headers : Filled s.shared.maps.paraHeadersMap (Offered turns .relay (·.headerEntry env))
  channels : Filled s.shared.maps.msgRootChannelMerkleMap (Offered turns .para BestBlock.ownChannel)
  pending : ∀ (r : H256) v, s.shared.maps.msgRootMap[r]? = some v → Offered turns .para BestBlock.msgEntry (r, v)
  size : s.shared.maps.msgRootMap.size ≤ turns.countP WholeTurn.isPara
  submitted : ∀ e, Offered turns .para BestBlock.msgEntry e →
    e.1 ∈ s.shared.maps.msgRootMap ∨ ∃ x ∈ submitted (s.record .generator), x.1.stage3.leaf = e.1
  assembled : ∀ x ∈ Relayer.submitted (s.record .generator), Assembled env turns x.1 x.2

variable {turns : List WholeTurn} {s : State} {x : BestBlock}

private theorem Assembled.imp {p : XcmpProof} {beefyRoot : H256} (h : Assembled env turns p beefyRoot)
    {turns' : List WholeTurn} (himp : ∀ {α : Type} {c : Collector} {entry : BestBlock → Option α} {e : α},
      Offered turns c entry e → Offered turns' c entry e) : Assembled env turns' p beefyRoot := by
  obtain ⟨⟨v, hv, hread⟩, hchannel, hhead, n, w, hw, hdecode⟩ := h
  exact ⟨⟨v, himp hv, hread⟩, himp hchannel, himp hhead, n, w, himp hw, hdecode⟩

private theorem inProgress_boot (best : H256) : InProgress env [] (boot best) where
  idle _ := rfl
  leaves := .empty fun _ => not_offered_nil
  headers := .empty fun _ => not_offered_nil
  channels := .empty fun _ => not_offered_nil
  pending r v hv := by simp [boot, Machine.State.init, Maps.empty] at hv
  size := le_of_eq Std.TreeMap.size_emptyc
  submitted e he := absurd he not_offered_nil
  assembled x hx := by cases hx

/-- A turn of a collector leaves the other tasks and the submissions as they are. -/
private theorem take_collect (hidle : ∀ i, s.tasks i = .idle) {c : Collector} (hx : c.Answered env x) :
    (WholeTurn.take env s (.collect c x)).shared.maps = (c.turn env x s.shared.maps).1 ∧
      (∀ i, (WholeTurn.take env s (.collect c x)).tasks i = .idle) ∧
      (WholeTurn.take env s (.collect c x)).record .generator = s.record .generator := by
  have htake : WholeTurn.take env s (.collect c x) =
      (machine env).perform (freeReply fun _ => x.replies) s c.task x.block := Machine.consume_cons_of_idle (hidle _)
  obtain ⟨hmaps, htask⟩ := Collector.perform_turn env c s x
  rw [htake]
  refine ⟨hmaps, fun i => ?_, Machine.perform_record_of_ne (by cases c <;> decide)⟩
  by_cases hi : i = c.task
  · subst hi
    rw [htask, if_pos ((Collector.turn_snd_iff _).2 hx)]
  · rw [Machine.perform_tasks_of_ne hi]
    exact hidle i

private theorem InProgress.relay (h : InProgress env turns s) (hx : Collector.relay.Answered env x) :
    InProgress env (turns ++ [.collect .relay x]) (WholeTurn.take env s (.collect .relay x)) := by
  obtain ⟨hmaps, hidle, hrecord⟩ := take_collect h.idle hx
  obtain ⟨e, he⟩ := Option.isSome_iff_exists.1 hx.1
  obtain ⟨e', he'⟩ := Option.isSome_iff_exists.1 hx.2
  have hturn : (WholeTurn.take env s (.collect .relay x)).shared.maps =
      Access.write (Access.write s.shared.maps (.insertLeaf e.1.1 e.1.2 e.2.1 e.2.2))
        (.insertParaHeader e'.1 e'.2) := by
    simp only [hmaps, Collector.turn, BestBlock.relayTurn, he, he']
  have hpara : ∀ y, WholeTurn.collect .relay x ≠ .collect .para y := fun y => by simp
  constructor
  · exact hidle
  · rw [hturn]
    exact h.leaves.insertEntry (some e) fun _ => by rw [offered_concat_collect, he]
  · rw [hturn]
    exact h.headers.insertEntry (some e') fun _ => by rw [offered_concat_collect, he']
  · rw [hturn]
    exact h.channels.congr fun _ => offered_concat_of_ne hpara
  · intro r v hv
    rw [hturn] at hv
    exact (offered_concat_of_ne hpara).2 (h.pending r v hv)
  · rw [hturn, List.countP_append]
    exact h.size
  · intro e he
    rw [hturn, hrecord]
    exact h.submitted e ((offered_concat_of_ne hpara).1 he)
  · intro y hy
    rw [hrecord] at hy
    exact (h.assembled y hy).imp fun he => he.mono (List.subset_append_left _ _)

private theorem InProgress.para (h : InProgress env turns s) (hx : Collector.para.Answered env x)
    (hown : ∀ e, x.ownChannel = some e → e.2.leaf = e.1) :
    InProgress env (turns ++ [.collect .para x]) (WholeTurn.take env s (.collect .para x)) := by
  obtain ⟨hmaps, hidle, hrecord⟩ := take_collect h.idle hx
  obtain ⟨e, he⟩ := Option.isSome_iff_exists.1 hx.1
  obtain ⟨p, hp⟩ := Option.isSome_iff_exists.1 hx.2
  have hchannel : x.ownChannel = some (e.1, p) := by simp [BestBlock.ownChannel, he, hp]
  have hleaf : p.leaf = e.1 := hown _ hchannel
  have hturn : (WholeTurn.take env s (.collect .para x)).shared.maps =
      Access.write (Access.write (Access.write s.shared.maps (.insertMsgRoot e.1 e.2))
        (.insertChannelRootProof p.root p)) (.insertMsgRootChannel e.1 p) := by
    simp only [hmaps, Collector.turn, BestBlock.paraTurn, he, hp, hleaf]
    exact if_pos Std.TreeMap.contains_insert_self
  have hrelay : ∀ y, WholeTurn.collect .para x ≠ .collect .relay y := fun y => by simp
  constructor
  · exact hidle
  · rw [hturn]
    exact h.leaves.congr fun _ => offered_concat_of_ne hrelay
  · rw [hturn]
    exact h.headers.congr fun _ => offered_concat_of_ne hrelay
  · rw [hturn]
    exact h.channels.insertEntry (some (e.1, p)) fun _ => by rw [offered_concat_collect, hchannel]
  · intro r v hv
    rw [hturn] at hv
    rw [offered_concat_collect, he]
    rcases getElem?_insertEntry s.shared.maps.msgRootMap (some e) r with heq | ⟨v', hentry, heq⟩
    · exact Or.inl (h.pending r v (heq.symm.trans hv))
    · rw [hentry, Option.some.inj (heq.symm.trans hv)]
      exact Or.inr rfl
  · rw [hturn, List.countP_append]
    exact Std.TreeMap.size_insert_le.trans (Nat.add_le_add_right h.size 1)
  · intro e' he'
    rw [hturn, hrecord]
    rcases offered_concat_collect.1 he' with hold | hnew
    · exact (h.submitted e' hold).imp_left fun hmem => Std.TreeMap.mem_insert.2 (Or.inr hmem)
    · rw [he, Option.some.injEq] at hnew
      subst hnew
      exact Or.inl Std.TreeMap.mem_insert_self
  · intro y hy
    rw [hrecord] at hy
    exact (h.assembled y hy).imp fun he => he.mono (List.subset_append_left _ _)

/-! ### The generator -/

private theorem exists_of_mem_beefyEntries {m : Maps} {root : H256} {v : H256 × LeavesProof}
    (h : v ∈ (Access.read m (.beefyEntries root) : List (H256 × LeavesProof))) :
    ∃ n : UInt32, m.leavesBeefyMmrMap[(root, n)]? = some v := by
  obtain ⟨y, hy, rfl⟩ := List.mem_map.1 h
  obtain ⟨hmem, hroot⟩ := List.mem_filter.1 hy
  obtain rfl : y.1.1 = root := of_decide_eq_true hroot
  exact ⟨y.1.2, Std.TreeMap.mem_toList_iff_getElem?_eq_some.1 hmem⟩

private theorem Offered.opensHeaderRoot {e : LeafEntry} (h : Offered turns .relay BestBlock.leafEntry e) :
    OpensHeaderRoot e.2.2 e.1.1 := by
  obtain ⟨x, -, hx⟩ := h
  simp only [BestBlock.leafEntry, Option.bind_eq_bind, Option.bind_eq_some_iff] at hx
  obtain ⟨_, -, _, -, _, -, leaves, hleaves, leaf, hleaf, mmrLeaf, hdecode, heq⟩ := hx
  obtain ⟨bs, rfl⟩ := List.head?_eq_some_iff.1 hleaf
  cases heq
  exact ⟨leaf, bs, mmrLeaf.1, mmrLeaf.2, hleaves, hdecode, rfl⟩

/-- A proof that the generator finds for a root is for that root, and was assembled from the blocks. -/
private theorem InProgress.of_chain (h : InProgress env turns s)
    (hown : ∀ e, Offered turns .para BestBlock.ownChannel e → e.2.leaf = e.1) {r : H256} {x : XcmpProof × H256}
    (hx : chain s.shared.maps r = some x) : x.1.stage3.leaf = r ∧ Assembled env turns x.1 x.2 := by
  simp only [chain, Option.bind_eq_bind, Option.bind_eq_some_iff, Option.pure_def, Option.some.injEq] at hx
  obtain ⟨stage4, hstage4, stage3, hstage3, leaves4, hleaves4, proof4, hproof4, stage2, hstage2, stage1, hstage1,
    leaves1, hleaves1, proof1, hproof1, rfl⟩ := hx
  have hchannel := h.channels.offered_of_get r stage3 hstage3
  obtain rfl : stage3.leaf = r := hown _ hchannel
  refine ⟨rfl, ⟨stage4, h.pending _ _ hstage4, hleaves4, hproof4⟩, hchannel,
    h.headers.offered_of_get _ _ hstage2, ?_⟩
  obtain ⟨n, hn⟩ := exists_of_mem_beefyEntries (List.mem_of_getLast? hstage1)
  exact ⟨n, stage1.2, h.leaves.offered_of_get _ _ hn, hleaves1, hproof1⟩

/-- When the data of all blocks fit together, there is a proof for each pending root. -/
private theorem InProgress.exists_chain (h : InProgress env turns s) (hanswered : ∀ t ∈ turns, t.Answered env)
    (hfit : FitTogether env turns) (hdecode : ProofsDecode turns) {r : H256} (hr : r ∈ s.shared.maps.msgRootMap) :
    ∃ x, chain s.shared.maps r = some x := by
  obtain ⟨stage4, hstage4⟩ := Option.isSome_iff_exists.1 (Std.TreeMap.mem_iff_isSome_getElem?.1 hr)
  obtain ⟨hleaves4, hproof4⟩ := hdecode.messages _ (h.pending r stage4 hstage4)
  obtain ⟨leaves4, hleaves4⟩ := Option.isSome_iff_exists.1 hleaves4
  obtain ⟨proof4, hproof4⟩ := Option.isSome_iff_exists.1 hproof4
  -- the block that has inserted the root has a channel proof as well
  obtain ⟨x, hx, hentry⟩ := h.pending r stage4 hstage4
  obtain ⟨p, hp⟩ := Option.isSome_iff_exists.1 (hanswered _ hx).2
  have hchannel : x.ownChannel = some (r, p) := by simp [BestBlock.ownChannel, hentry, hp]
  obtain ⟨stage3, hstage3⟩ := h.channels.exists_of_offered _ ⟨x, hx, hchannel⟩
  obtain ⟨p', hp'⟩ := hfit.head _ (h.channels.offered_of_get r stage3 hstage3)
  obtain ⟨stage2, hstage2⟩ := h.headers.exists_of_offered _ hp'
  obtain ⟨n, v, hv⟩ := hfit.leaf _ (h.headers.offered_of_get _ stage2 hstage2)
  obtain ⟨v', hv'⟩ := h.leaves.exists_of_offered _ hv
  have hleaf : HasLeaf s.shared.maps stage2.root :=
    hasLeaf_iff.2 ⟨n, Std.TreeMap.mem_iff_isSome_getElem?.2 (Option.isSome_of_eq_some hv')⟩
  obtain ⟨stage1, hstage1⟩ := Option.isSome_iff_exists.1 (List.getLast?_isSome.2 hleaf)
  obtain ⟨k, hk⟩ := exists_of_mem_beefyEntries (List.mem_of_getLast? hstage1)
  have hoffered := h.leaves.offered_of_get _ _ hk
  obtain ⟨proof1, hproof1⟩ := Option.isSome_iff_exists.1 (hdecode.beefy _ hoffered)
  obtain ⟨b, bs, -, -, hleaves1, -⟩ := hoffered.opensHeaderRoot
  simp only [chain, hstage4, hstage3, hleaves4, hproof4, hstage2, hstage1, hleaves1, hproof1, Option.bind_eq_bind,
    Option.bind_some]
  exact ⟨_, rfl⟩

/-- A turn that collects nothing.  It may take roots away, if their proofs are submitted. -/
private theorem InProgress.concat (h : InProgress env turns s) {t : WholeTurn} (ht : ∀ c x, t ≠ .collect c x)
    {s' : State} (hidle : ∀ i, s'.tasks i = .idle)
    (hmaps : s'.shared.maps = { s.shared.maps with msgRootMap := s'.shared.maps.msgRootMap })
    (hpending : ∀ (r : H256) v, s'.shared.maps.msgRootMap[r]? = some v → s.shared.maps.msgRootMap[r]? = some v)
    (hsize : s'.shared.maps.msgRootMap.size ≤ s.shared.maps.msgRootMap.size) (new : List (XcmpProof × H256))
    (hsubmitted : Relayer.submitted (s'.record .generator) = new ++ Relayer.submitted (s.record .generator))
    (hnew : ∀ x ∈ new, Assembled env turns x.1 x.2)
    (htaken : ∀ r ∈ s.shared.maps.msgRootMap, r ∈ s'.shared.maps.msgRootMap ∨ ∃ x ∈ new, x.1.stage3.leaf = r) :
    InProgress env (turns ++ [t]) s' := by
  have hsub : turns ⊆ turns ++ [t] := List.subset_append_left _ _
  constructor
  · exact hidle
  · rw [hmaps]
    exact h.leaves.congr fun _ => offered_concat_of_ne (ht _)
  · rw [hmaps]
    exact h.headers.congr fun _ => offered_concat_of_ne (ht _)
  · rw [hmaps]
    exact h.channels.congr fun _ => offered_concat_of_ne (ht _)
  · exact fun r v hv => (h.pending r v (hpending r v hv)).mono hsub
  · rw [List.countP_append]
    exact (hsize.trans h.size).trans (Nat.le_add_right _ _)
  · intro e he
    rw [hsubmitted]
    rcases h.submitted e ((offered_concat_of_ne (ht _)).1 he) with hmem | ⟨x, hx, hleaf⟩
    · refine (htaken e.1 hmem).imp_right ?_
      rintro ⟨x, hx, hleaf⟩
      exact ⟨x, List.mem_append_left _ hx, hleaf⟩
    · exact Or.inr ⟨x, List.mem_append_right _ hx, hleaf⟩
  · intro x hx
    rw [hsubmitted] at hx
    rcases List.mem_append.1 hx with hx | hx
    · exact (hnew x hx).imp fun he => he.mono hsub
    · exact (h.assembled x hx).imp fun he => he.mono hsub

private theorem InProgress.generate (h : InProgress env turns s)
    (hown : ∀ e, Offered turns .para BestBlock.ownChannel e → e.2.leaf = e.1) {b : Block} {nodes : Nodes}
    (hnodes : ∀ best r, (nodes best r).isSome) :
    InProgress env (turns ++ [.generate b nodes]) (WholeTurn.take env s (.generate b nodes)) := by
  have htake : WholeTurn.take env s (.generate b nodes) = (machine env).perform (freeReply nodes) s .generator b :=
    Machine.consume_cons_of_idle (h.idle _)
  have hne : ∀ c x, WholeTurn.generate b nodes ≠ .collect c x := fun c x => by simp
  obtain ⟨hidle, hcall⟩ := perform_generator env hnodes b (h.idle .generator)
  rw [← htake] at hidle hcall
  have htasks : ∀ i, (WholeTurn.take env s (.generate b nodes)).tasks i = .idle := by
    intro i
    by_cases hi : i = .generator
    · rw [hi]
      exact hidle
    · rw [htake, Machine.perform_tasks_of_ne hi]
      exact h.idle i
  rcases hcall with ⟨e, es, x, hlist, hx, hshared, hsubmitted⟩ | ⟨-, hshared, hsubmitted⟩
  · obtain ⟨hleaf, hassembled⟩ := h.of_chain hown hx
    refine h.concat hne htasks (by rw [hshared]; rfl) ?_ ?_ [x] hsubmitted (by simpa using hassembled) ?_
    · intro r v hv
      rw [hshared] at hv
      exact (Option.ite_none_left_eq_some.1 (Std.TreeMap.getElem?_erase.symm.trans hv)).2
    · rw [hshared]
      exact Std.TreeMap.size_erase_le
    · intro r hr
      rw [hshared]
      by_cases hre : e.1 = r
      · exact Or.inr ⟨x, List.mem_singleton_self x, hleaf.trans hre⟩
      · exact Or.inl (Std.TreeMap.mem_erase.2 ⟨fun heq => hre (Std.LawfulEqOrd.eq_of_compare heq), hr⟩)
  · refine h.concat hne htasks (by rw [hshared]) ?_ ?_ [] hsubmitted (by simp) ?_
    · rw [hshared]
      exact fun r v hv => hv
    · rw [hshared]
    · rw [hshared]
      exact fun r hr => Or.inl hr

/-! ### All turns -/

private theorem takeTurns_append (s : State) (turns turns' : List WholeTurn) :
    takeTurns env s (turns ++ turns') = takeTurns env (takeTurns env s turns) turns' := List.foldl_append

private theorem inProgress_takeTurns (env : Externals) (best : H256) (turns : List WholeTurn)
    (hanswered : ∀ t ∈ turns, t.Answered env)
    (hown : ∀ e, Offered turns .para BestBlock.ownChannel e → e.2.leaf = e.1) :
    InProgress env turns (takeTurns env (boot best) turns) := by
  induction turns using List.reverseRecOn with
  | nil => exact inProgress_boot best
  | append_singleton turns t ih =>
    have hsub : turns ⊆ turns ++ [t] := List.subset_append_left _ _
    have hown' : ∀ e, Offered turns .para BestBlock.ownChannel e → e.2.leaf = e.1 := fun e he => hown e (he.mono hsub)
    have h := ih (fun t ht => hanswered t (hsub ht)) hown'
    have ht := hanswered t (by simp)
    rw [takeTurns_append]
    cases t with
    | collect c x =>
      cases c with
      | relay => exact h.relay ht
      | para => exact h.para ht fun e he => hown e ⟨x, by simp, he⟩
    | generate b nodes => exact h.generate hown' ht

/-- Further calls of the generator, as turns. -/
def furtherCalls (calls : List (Block × Nodes)) : List WholeTurn := calls.map fun c => .generate c.1 c.2

private theorem takeTurns_furtherCalls (s : State) (calls : List (Block × Nodes)) :
    takeTurns env s (furtherCalls calls) = generatorCalls env s calls := by
  induction calls generalizing s with
  | nil => rfl
  | cons c calls ih =>
    have hcons : generatorCalls env s (c :: calls) = generatorCalls env (generatorCalls env s [c]) calls := by
      rw [generatorCalls, List.map_cons, ← List.singleton_append, Machine.consume_append]
      rfl
    rw [hcons, ← ih]
    rfl

private theorem offered_furtherCalls {α : Type} {c : Collector} {entry : BestBlock → Option α} {e : α}
    {calls : List (Block × Nodes)} :
    Offered (turns ++ furtherCalls calls) c entry e ↔ Offered turns c entry e := by
  apply offered_append_of_not
  rintro ⟨x, hx, -⟩
  obtain ⟨c, -, hc⟩ := List.mem_map.1 hx
  cases hc

private theorem length_leadingSomes {α : Type} {l : List (Option α)} (h : ∀ o ∈ l, ∃ a, o = some a) :
    (leadingSomes l).length = l.length := by
  induction l with
  | nil => rfl
  | cons o l ih =>
    obtain ⟨a, rfl⟩ := h o List.mem_cons_self
    rw [leadingSomes, List.length_cons, List.length_cons, ih fun o ho => h o (List.mem_cons_of_mem _ ho)]

/-- Enough calls leave nothing pending. -/
private theorem InProgress.generatorCalls (h : InProgress env turns s) (hanswered : ∀ t ∈ turns, t.Answered env)
    (hfit : FitTogether env turns) (hdecode : ProofsDecode turns) {calls : List (Block × Nodes)}
    (hcalls : ∀ c ∈ calls, ∀ best r, (c.2 best r).isSome)
    (henough : turns.countP WholeTurn.isPara ≤ calls.length) :
    (generatorCalls env s calls).shared.maps.msgRootMap.toList = [] := by
  obtain ⟨-, -, hpending, -⟩ := generatorCalls_spec env (h.idle .generator) hcalls
  have hlength : s.shared.maps.msgRootMap.toList.length ≤ calls.length := by
    rw [Std.TreeMap.length_toList]
    exact h.size.trans henough
  rw [hpending]
  apply List.drop_eq_nil_of_le
  rw [readyProofs, List.take_of_length_le hlength, length_leadingSomes, List.length_map]
  intro o ho
  obtain ⟨e, he, rfl⟩ := List.mem_map.1 ho
  refine h.exists_chain hanswered hfit hdecode ?_
  rw [Std.TreeMap.mem_iff_isSome_getElem?, Std.TreeMap.mem_toList_iff_getElem?_eq_some.1 he]
  rfl

private theorem reachable_takeTurns : Reachable (machine env).step s (takeTurns env s turns) := by
  induction turns generalizing s with
  | nil => exact .refl
  | cons t turns ih =>
    have ht : Reachable (machine env).step s (t.take env s) := by
      cases t with
      | collect c x => exact Collector.reachable_consume
      | generate b nodes =>
        apply Machine.reachable_consume
        intro y hy s q
        rw [List.mem_singleton.1 hy]
        exact handle_freeReply nodes s q
    exact ht.trans ih

/-- Nothing is pending, and each root of messages was submitted. -/
private theorem submitted_takeTurns (env : Externals) (best : H256) {turns : List WholeTurn}
    {calls : List (Block × Nodes)} (hanswered : ∀ t ∈ turns ++ furtherCalls calls, t.Answered env)
    (hfit : FitTogether env turns) (hdecode : ProofsDecode turns)
    (henough : turns.countP WholeTurn.isPara ≤ calls.length) :
    (takeTurns env (boot best) (turns ++ furtherCalls calls)).shared.maps.msgRootMap.toList = [] ∧
      (∀ e, Offered turns .para BestBlock.msgEntry e →
        ∃ x ∈ submitted ((takeTurns env (boot best) (turns ++ furtherCalls calls)).record .generator),
          x.1.stage3.leaf = e.1) ∧
      ∀ x ∈ submitted ((takeTurns env (boot best) (turns ++ furtherCalls calls)).record .generator),
        Assembled env turns x.1 x.2 := by
  have hturns : ∀ t ∈ turns, t.Answered env := fun t ht => hanswered t (List.mem_append_left _ ht)
  have hcalls : ∀ c ∈ calls, ∀ best r, (c.2 best r).isSome := fun c hc =>
    hanswered (.generate c.1 c.2) (List.mem_append_right _ (List.mem_map_of_mem hc))
  have hempty : (takeTurns env (boot best) (turns ++ furtherCalls calls)).shared.maps.msgRootMap.toList = [] := by
    rw [takeTurns_append, takeTurns_furtherCalls]
    exact (inProgress_takeTurns env best turns hturns hfit.own).generatorCalls hturns hfit hdecode hcalls henough
  have hend := inProgress_takeTurns env best (turns ++ furtherCalls calls) hanswered fun e he =>
    hfit.own e (offered_furtherCalls.1 he)
  refine ⟨hempty, fun e he => ?_, fun x hx => (hend.assembled x hx).imp offered_furtherCalls.1⟩
  refine (hend.submitted e (offered_furtherCalls.2 he)).resolve_left fun hmem => ?_
  obtain ⟨v, hv⟩ := Option.isSome_iff_exists.1 (Std.TreeMap.mem_iff_isSome_getElem?.1 hmem)
  have hlist := Std.TreeMap.mem_toList_iff_getElem?_eq_some.2 hv
  rw [hempty] at hlist
  cases hlist

/-- Turns of the collectors and of the generator in any order, with all locks free and all requests answered, over
blocks whose data fit together.  After as many further calls of the generator as the sender had blocks nothing is
pending, and for the root of messages of each block a proof was submitted.  All that was submitted is assembled from
data of these blocks. -/
theorem all_submitted (env : Externals) (best : H256) (turns : List WholeTurn) (calls : List (Block × Nodes))
    (hanswered : ∀ t ∈ turns ++ furtherCalls calls, t.Answered env) (hfit : FitTogether env turns)
    (hdecode : ProofsDecode turns) (henough : turns.countP WholeTurn.isPara ≤ calls.length) :
    Reachable (machine env).step (boot best) (takeTurns env (boot best) (turns ++ furtherCalls calls)) ∧
      (takeTurns env (boot best) (turns ++ furtherCalls calls)).shared.maps.msgRootMap.toList = [] ∧
      (∀ e, Offered turns .para BestBlock.msgEntry e →
        ∃ x ∈ submitted ((takeTurns env (boot best) (turns ++ furtherCalls calls)).record .generator),
          x.1.stage3.leaf = e.1) ∧
      ∀ x ∈ submitted ((takeTurns env (boot best) (turns ++ furtherCalls calls)).record .generator),
        Assembled env turns x.1 x.2 :=
  ⟨reachable_takeTurns, submitted_takeTurns env best hanswered hfit hdecode henough⟩

/-! ### Two blocks of the sender -/

/-- The first call comes before the relay block, the second one between the two blocks of the sender. -/
def mixedTurns : List WholeTurn :=
  [.collect .para paraBest, .generate paraBlock deliveringNode, .collect .relay relayBest,
    .generate paraBlock deliveringNode, .collect .para nextParaBest]

def twoCalls : List (Block × Nodes) := List.replicate 2 (paraBlock, deliveringNode)

section MixedTurns

variable {α : Type} {entry : BestBlock → Option α} {e : α}

private theorem offered_mixedTurns_relay : Offered mixedTurns .relay entry e ↔ entry relayBest = some e := by
  simp [Offered, mixedTurns]

private theorem offered_mixedTurns_para :
    Offered mixedTurns .para entry e ↔ entry paraBest = some e ∨ entry nextParaBest = some e := by
  simp [Offered, mixedTurns, or_and_right, exists_or]

end MixedTurns

private theorem answered_mixedTurns : ∀ t ∈ mixedTurns ++ furtherCalls twoCalls, t.Answered (.documented xcmrRoot) := by
  have hnode : ∀ b, (WholeTurn.generate b deliveringNode).Answered (.documented xcmrRoot) := by
    intro b best r
    cases r <;> rfl
  simp only [mixedTurns, furtherCalls, twoCalls, List.replicate, List.map_cons, List.map_nil, List.cons_append,
    List.nil_append, List.forall_mem_cons, List.not_mem_nil, IsEmpty.forall_iff, implies_true, and_true]
  exact ⟨⟨rfl, rfl⟩, hnode _, ⟨by decide +kernel, by decide +kernel⟩, hnode _, ⟨rfl, rfl⟩, hnode _, hnode _⟩

private theorem fitTogether_mixedTurns : FitTogether (.documented xcmrRoot) mixedTurns where
  own e he := by
    rw [offered_mixedTurns_para] at he
    rcases he with he | he <;> cases he <;> rfl
  head e he := by
    have hhead : ((relayBest.headerEntry (.documented xcmrRoot)).map Prod.fst) = some (.repeatByte 0x12) := by
      decide +kernel
    obtain ⟨⟨root, p⟩, hp, rfl⟩ := Option.map_eq_some_iff.1 hhead
    refine ⟨p, offered_mixedTurns_relay.2 ?_⟩
    rw [offered_mixedTurns_para] at he
    rcases he with he | he <;> cases he <;> exact hp
  leaf e he := by
    have hroots : (relayBest.headerEntry (.documented xcmrRoot)).map (·.2.root) = relayBest.leafEntry.map (·.1.1) := by
      decide +kernel
    rw [offered_mixedTurns_relay] at he
    rw [he, Option.map_some] at hroots
    obtain ⟨⟨⟨root, n⟩, v⟩, hv, heq⟩ := Option.map_eq_some_iff.1 hroots.symm
    refine ⟨n, v, offered_mixedTurns_relay.2 ?_⟩
    rw [hv, ← heq]

private theorem proofsDecode_mixedTurns : ProofsDecode mixedTurns where
  messages e he := by
    rw [offered_mixedTurns_para] at he
    rcases he with he | he <;> cases he <;> exact ⟨by decide +kernel, by decide +kernel⟩
  beefy e he := by
    have hall : relayBest.leafEntry.all (fun e => (decodeProof e.2.2.proof).isSome) = true := by decide +kernel
    rw [offered_mixedTurns_relay] at he
    rw [he] at hall
    exact hall

theorem all_submitted_mixed :
    let s := takeTurns (.documented xcmrRoot) (boot H256.zero) (mixedTurns ++ furtherCalls twoCalls)
    s.shared.maps.msgRootMap.toList = [] ∧ ∀ r : H256, r = .repeatByte 0x21 ∨ r = .repeatByte 0x22 →
      ∃ x ∈ submitted (s.record .generator), x.1.stage3.leaf = r := by
  obtain ⟨-, hempty, hsubmitted, -⟩ := all_submitted (.documented xcmrRoot) H256.zero mixedTurns twoCalls
    answered_mixedTurns fitTogether_mixedTurns proofsDecode_mixedTurns (by decide)
  refine ⟨hempty, ?_⟩
  rintro r (rfl | rfl)
  · exact hsubmitted (_, _) (offered_mixedTurns_para.2 (Or.inl rfl))
  · exact hsubmitted (_, _) (offered_mixedTurns_para.2 (Or.inr rfl))

/-! ### Acceptance -/

/-- What the blocks offer is valid: each proof of a BEEFY leaf for the root that was stored with it, each proof of
messages for its root, and the proofs in between for the roots that they name. -/
structure ValidPieces (env : Externals) (turns : List WholeTurn) : Prop where
  leaf : ∀ e, Offered turns .relay BestBlock.leafEntry e → Verifies env e.2.2 e.2.1 ∧ SingleLeaf e.2.2
  head : ∀ e, Offered turns .relay (·.headerEntry env) e → HeadVerifies env e.2
  channel : ∀ e, Offered turns .para BestBlock.ownChannel e → ChannelVerifies env e.2
  messages : ∀ e, Offered turns .para BestBlock.msgEntry e → Verifies env e.2 e.1

private theorem ValidPieces.proofsDecode (h : ValidPieces env turns) : ProofsDecode turns where
  messages e he := by
    obtain ⟨leaves, p, hleaves, hp, -⟩ := h.messages e he
    exact ⟨Option.isSome_of_eq_some hleaves, Option.isSome_of_eq_some hp⟩
  beefy e he := by
    obtain ⟨leaves, p, -, hp, -⟩ := (h.leaf e he).1
    exact Option.isSome_of_eq_some hp

private theorem Offered.extracts {e : H256 × ParaMerkleProof} (h : Offered turns .relay (·.headerEntry env) e) :
    extractXcmpChannelRoot env e.2.leaf = some e.1 := by
  obtain ⟨x, -, hx⟩ := h
  simp only [BestBlock.headerEntry, Option.bind_eq_bind, Option.bind_eq_some_iff] at hx
  obtain ⟨p, -, root, hroot, hif⟩ := hx
  obtain ⟨-, heq⟩ := Option.ite_none_left_eq_some.1 hif
  cases heq
  exact hroot

/-- The pallet has one objection at most to a proof that is assembled from valid pieces. -/
private theorem Assembled.accepted_iff {p : XcmpProof} {beefyRoot : H256} (h : Assembled env turns p beefyRoot)
    (hvalid : ValidPieces env turns) (hashOf : Bytes → H256) (cfg : Config) (es : List PalletEvent) (who : Bytes) :
    XcmpPrototype.submitXcmpProof env (palletRun env hashOf cfg es) (.signed who) p beefyRoot = .ok () ↔
      ∃ b ∈ blocks es, b.root = beefyRoot := by
  obtain ⟨⟨v, hv, hleaves4, hproof4⟩, hchannel, hhead, n, w, hw, hleaves1, hproof1⟩ := h
  obtain ⟨hverifies, hsingle⟩ := hvalid.leaf _ hw
  have hpiece : LeafPiece env (fun _ => beefyRoot) True (beefyRoot, w).1 (beefyRoot, w).2 :=
    ⟨hverifies, hsingle, fun _ => rfl⟩
  have hopens : OpensHeaderRoot (beefyRoot, w).2 p.stage2.root := hw.opensHeaderRoot
  have hmessages : Verifies env (p.stage3.leaf, v).2 (p.stage3.leaf, v).1 := hvalid.messages _ hv
  have hstages : StagesVerify env (fun _ => beefyRoot) True p beefyRoot :=
    stagesVerify_of_pieces hpiece (hvalid.head _ hhead) ⟨hvalid.channel _ hchannel, rfl⟩ hmessages hleaves1 hproof1
      hleaves4 hproof4
  have hlink : Linked env p := linked_of_entries hopens hleaves1 hhead.extracts
  obtain ⟨-, hverify, -⟩ := hstages.stage1
  rw [hstages.verdict hlink, ← (seen_palletRun env hashOf cfg es).contains_iff, hverify]
  cases (palletRun env hashOf cfg es).seenBeefyRoots.contains beefyRoot <;> simp

/-- In the same situation, with blocks whose pieces are valid: once the receiver has noted the roots of the relay
blocks, it accepts all that was submitted, and with it a proof for each block of the sender. -/
theorem all_accepted (env : Externals) (best : H256) (turns : List WholeTurn) (calls : List (Block × Nodes))
    (hanswered : ∀ t ∈ turns ++ furtherCalls calls, t.Answered env) (hfit : FitTogether env turns)
    (hvalid : ValidPieces env turns) (henough : turns.countP WholeTurn.isPara ≤ calls.length) (hashOf : Bytes → H256)
    (cfg : Config) (es : List PalletEvent) (who : Bytes)
    (hnoted : ∀ e, Offered turns .relay BestBlock.leafEntry e → ∃ b ∈ blocks es, b.root = e.2.1) :
    (∀ x ∈ submitted ((takeTurns env (boot best) (turns ++ furtherCalls calls)).record .generator),
      XcmpPrototype.submitXcmpProof env (palletRun env hashOf cfg es) (.signed who) x.1 x.2 = .ok ()) ∧
    ∀ e, Offered turns .para BestBlock.msgEntry e →
      ∃ x ∈ submitted ((takeTurns env (boot best) (turns ++ furtherCalls calls)).record .generator),
        x.1.stage3.leaf = e.1 ∧ (∃ v, Offered turns .para BestBlock.msgEntry (e.1, v) ∧ ReadFrom v x.1) ∧
          XcmpPrototype.submitXcmpProof env (palletRun env hashOf cfg es) (.signed who) x.1 x.2 = .ok () := by
  obtain ⟨-, hsubmitted, hassembled⟩ := submitted_takeTurns env best hanswered hfit hvalid.proofsDecode henough
  have haccepted : ∀ x ∈ submitted ((takeTurns env (boot best) (turns ++ furtherCalls calls)).record .generator),
      XcmpPrototype.submitXcmpProof env (palletRun env hashOf cfg es) (.signed who) x.1 x.2 = .ok () := by
    intro x hx
    obtain ⟨n, w, hw, -⟩ := (hassembled x hx).leaf
    exact ((hassembled x hx).accepted_iff hvalid hashOf cfg es who).2 (hnoted _ hw)
  refine ⟨haccepted, fun e he => ?_⟩
  obtain ⟨x, hx, hleaf⟩ := hsubmitted e he
  refine ⟨x, hx, hleaf, ?_, haccepted x hx⟩
  rw [← hleaf]
  exact (hassembled x hx).messages

/-- The second block of the relay chain, with valid pieces. -/
def soleRelay : BestBlock := ⟨⟨.repeatByte 0x10, 2⟩, solePieces.relayNode H256.zero⟩

/-- The second block of the sender, with valid pieces. -/
def solePara : BestBlock := ⟨⟨.repeatByte 0x20, 2⟩, solePieces.paraNode H256.zero⟩

def soleTurns : List WholeTurn := [.collect .relay soleRelay, .collect .para solePara]

def soleCalls : List (Block × Nodes) := [(⟨.repeatByte 0x20, 2⟩, solePieces.paraNode)]

/-- The receiver has noted the root of the relay block. -/
def notedRoot : List PalletEvent :=
  [.block { emptyBlock 1 with getRoot := some solePieces.beefyRoot }]

section SoleTurns

variable {α : Type} {entry : BestBlock → Option α} {e : α}

private theorem offered_soleTurns_relay : Offered soleTurns .relay entry e ↔ entry soleRelay = some e := by
  simp [Offered, soleTurns]

private theorem offered_soleTurns_para : Offered soleTurns .para entry e ↔ entry solePara = some e := by
  simp [Offered, soleTurns]

end SoleTurns

/-- The proof of the second BEEFY leaf. -/
def soleBeefyProof : LeavesProof :=
  leafProof ⟨.repeatByte 0x10, 2⟩ 1 (keccak256 solePieces.firstBeefyLeaf.1) solePieces.beefyLeaf

private theorem soleRelay_leafEntry :
    soleRelay.leafEntry = some ((SoleProof.honest.headsRoot, 2), (solePieces.beefyRoot, soleBeefyProof)) := by
  have hdecode := BeefyMmrLeaf.codec.decode_encode SoleProof.honest.leaf []
  rw [List.append_nil] at hdecode
  show ((decodeLeaves soleBeefyProof.leaves).bind fun leaves =>
    leaves.head?.bind fun leaf => (BeefyMmrLeaf.codec.decode leaf).bind fun mmrLeaf =>
      some ((mmrLeaf.1.leafExtra, (2 : UInt32)), (solePieces.beefyRoot, soleBeefyProof))) = _
  rw [soleBeefyProof, (decode_leafProof _ _ _ _).1]
  show ((BeefyMmrLeaf.codec.decode (BeefyMmrLeaf.codec.encode SoleProof.honest.leaf)).bind _) = _
  rw [hdecode]
  rfl

private theorem soleRelay_headerEntry :
    soleRelay.headerEntry (.documented xcmrRoot) =
      some (SoleProof.honest.channelsRoot, SoleProof.honest.proof.stage2) := by
  have hextract : extractXcmpChannelRoot (.documented xcmrRoot) SoleProof.honest.head =
      some SoleProof.honest.channelsRoot := by
    rw [extractXcmpChannelRoot, SoleProof.honest.decode_head]
    exact xcmrRoot_headerWith _
  have hne : SoleProof.honest.channelsRoot ≠ H256.zero := by decide +kernel
  show ((extractXcmpChannelRoot (.documented xcmrRoot) SoleProof.honest.head).bind fun root =>
    if root = H256.zero then none else some (root, SoleProof.honest.proof.stage2)) = _
  rw [hextract, Option.bind_some, if_neg hne]

private theorem solePara_msgEntry :
    solePara.msgEntry = some (solePieces.msgRoot,
      leafProof ⟨.repeatByte 0x20, 2⟩ 1 (keccak256 solePieces.firstMessage.1) solePieces.message) := rfl

private theorem solePara_ownChannel :
    solePara.ownChannel = some (solePieces.msgRoot, SoleProof.honest.proof.stage3) := rfl

private theorem singleLeaf_leafProof (b : Block) (index : UInt64) (other : H256) (leaf : Vec UInt8) :
    SingleLeaf (leafProof b index other leaf) := by
  intro leaves hleaves
  rw [(decode_leafProof b index other leaf).1, Option.some.injEq] at hleaves
  rw [← hleaves]
  exact Nat.le_refl 1

private theorem answered_soleTurns : ∀ t ∈ soleTurns ++ furtherCalls soleCalls, t.Answered (.documented xcmrRoot) := by
  simp only [soleTurns, furtherCalls, soleCalls, List.map_cons, List.map_nil, List.cons_append, List.nil_append,
    List.forall_mem_cons, List.not_mem_nil, IsEmpty.forall_iff, implies_true, and_true]
  have hleaf := Option.isSome_of_eq_some soleRelay_leafEntry
  have hheader := Option.isSome_of_eq_some soleRelay_headerEntry
  refine ⟨⟨hleaf, hheader⟩, ⟨rfl, rfl⟩, ?_⟩
  intro best r
  cases r <;> rfl

private theorem fitTogether_soleTurns : FitTogether (.documented xcmrRoot) soleTurns where
  own e he := by
    rw [offered_soleTurns_para, solePara_ownChannel] at he
    cases he
    rfl
  head e he := by
    rw [offered_soleTurns_para, solePara_ownChannel] at he
    cases he
    exact ⟨_, offered_soleTurns_relay.2 soleRelay_headerEntry⟩
  leaf e he := by
    rw [offered_soleTurns_relay, soleRelay_headerEntry] at he
    cases he
    exact ⟨_, _, offered_soleTurns_relay.2 soleRelay_leafEntry⟩

private theorem validPieces_soleTurns : ValidPieces (.documented xcmrRoot) soleTurns where
  leaf e he := by
    rw [offered_soleTurns_relay, soleRelay_leafEntry] at he
    cases he
    exact ⟨verifies_leafProof _ _ _, singleLeaf_leafProof _ _ _ _⟩
  head e he := by
    rw [offered_soleTurns_relay, soleRelay_headerEntry] at he
    cases he
    exact ⟨by decide, by decide, BinaryMerkle.verifyProof_sole keccak rfl⟩
  channel e he := by
    rw [offered_soleTurns_para, solePara_ownChannel] at he
    cases he
    exact ⟨by decide, by decide, BinaryMerkle.verifyProof_sole keccak rfl⟩
  messages e he := by
    rw [offered_soleTurns_para, solePara_msgEntry] at he
    cases he
    exact verifies_leafProof _ _ _

theorem all_accepted_sole :
    ∃ x ∈ submitted ((takeTurns (.documented xcmrRoot) (boot H256.zero)
        (soleTurns ++ furtherCalls soleCalls)).record .generator),
      x.1.stage3.leaf = solePieces.msgRoot ∧
        XcmpPrototype.submitXcmpProof (.documented xcmrRoot)
          (palletRun (.documented xcmrRoot) keccak256 ⟨1000, 0, 8⟩ notedRoot) (.signed []) x.1 x.2 = .ok () := by
  have hnoted : ∀ e, Offered soleTurns .relay BestBlock.leafEntry e → ∃ b ∈ blocks notedRoot, b.root = e.2.1 := by
    intro e he
    rw [offered_soleTurns_relay, soleRelay_leafEntry] at he
    cases he
    exact ⟨_, List.mem_singleton_self _, rfl⟩
  obtain ⟨x, hx, hleaf, -, haccepted⟩ := (all_accepted (.documented xcmrRoot) H256.zero soleTurns soleCalls
    answered_soleTurns fitTogether_soleTurns validPieces_soleTurns (by decide) keccak256 ⟨1000, 0, 8⟩ notedRoot []
    hnoted).2 _ (offered_soleTurns_para.2 solePara_msgEntry)
  exact ⟨x, hx, hleaf, haccepted⟩

end XcmpPrototype.Relayer
