import XcmpPrototype.HashTree

/-!
# Binary Merkle trees and Merkle mountain ranges

Two ways to commit to a list of byte strings, each with the check of a membership proof.

* A binary Merkle tree pairs the nodes of a row from the left; an unpaired last node moves up unchanged.  A proof is the
  list of siblings from the leaf up, and the side of each sibling is read off the claimed position and row width.
* A mountain range keeps one perfect tree for each binary digit of the number of leaves and bags the peaks from right
  to left.  A proof names the positions of its leaves in a range of a claimed size and lists the remaining nodes.  Of
  several leaves at one position only the first is looked at, and the only leaf of a range has no proof.

Both commitments are hash trees over exactly the committed strings (`BinaryMerkle.leaves_tree`, `Mmr.mem_leaves_tree`),
and whatever either check accepts is a leaf of a hash tree with the given root, as long as no two leaves are at the same
position (`BinaryMerkle.verifyProof_recomputes`, `Mmr.verifyLeavesProof_recomputes`).  `Recomputes` keeps only that last
property.
-/

open Scale

variable {δ : Type}

/-- `verify` accepts only by recomputing the root: the strings `opened` by an accepted proof are leaves of the tree that
is hashed to check it. -/
def Recomputes {π : Type} (H : Hashing δ) (verify : δ → π → Bool) (tree : π → HashTree δ) (opened : π → List Bytes) :
    Prop :=
  ∀ root p, verify root p = true → (tree p).root H = root ∧ ∀ b ∈ opened p, b ∈ (tree p).leaves

/-- `verify` accepts exactly when the tree of the proof has the given root, and the leaves enter that tree only as its
leaves; all of them do if the proof separates them. -/
structure RecomputesLeaves {π : Type} (H : Hashing δ) (verify : δ → List Bytes → π → Bool)
    (tree : List Bytes → π → Option (HashTree δ)) (separates : π → ℕ → Prop) : Prop where
  verify_iff : ∀ root bs p, verify root bs p = true ↔ ∃ t, tree bs p = some t ∧ t.root H = root
  tree_map : ∀ (f : Bytes → Bytes) bs p, tree (bs.map f) p = (tree bs p).map (HashTree.mapLeaves f)
  mem_leaves : ∀ bs p t, separates p bs.length → tree bs p = some t → ∀ b ∈ bs, b ∈ t.leaves

/-- The strings hashed to check a proof. -/
def hashedBy {π : Type} (H : Hashing δ) (tree : List Bytes → π → Option (HashTree δ)) (bs : List Bytes) (p : π) :
    List Bytes :=
  ((tree bs p).map (HashTree.hashed H)).getD []

/-- Lists of the same length are images of one list of distinct strings. -/
private theorem exists_places {bs bs' : List Bytes} (hlen : bs.length = bs'.length) :
    ∃ (places : List Bytes) (f g : Bytes → Bytes), places.map f = bs ∧ places.map g = bs' := by
  refine ⟨(List.range bs.length).map fun i => List.replicate i 0, fun b => bs.getD b.length [],
    fun b => bs'.getD b.length [], ?_, ?_⟩
  · apply List.ext_getElem
    · simp
    · intro i hi hi'
      simp [hi']
  · apply List.ext_getElem
    · simp [hlen]
    · intro i hi hi'
      simp [hi']

/-- One proof is accepted for one list of leaves of each length only, when it separates them and no two of the hashed
strings collide. -/
theorem RecomputesLeaves.eq_of_verify {π : Type} {H : Hashing δ} {verify : δ → List Bytes → π → Bool}
    {tree : List Bytes → π → Option (HashTree δ)} {separates : π → ℕ → Prop}
    (h : RecomputesLeaves H verify tree separates) {root : δ} {bs bs' : List Bytes} {p : π}
    (hlen : bs.length = bs'.length) (hsep : separates p bs.length) (hv : verify root bs p = true)
    (hv' : verify root bs' p = true) (hcf : H.CollisionFree (hashedBy H tree bs p ++ hashedBy H tree bs' p)) :
    bs = bs' := by
  obtain ⟨t, ht, hroot⟩ := (h.verify_iff root bs p).1 hv
  obtain ⟨t', ht', hroot'⟩ := (h.verify_iff root bs' p).1 hv'
  simp only [hashedBy, ht, ht', Option.map_some, Option.getD_some] at hcf
  -- both trees are the tree of the same places
  obtain ⟨places, f, g, rfl, rfl⟩ := exists_places hlen
  rw [List.length_map] at hsep
  rw [h.tree_map, Option.map_eq_some_iff] at ht ht'
  obtain ⟨u, hu, rfl⟩ := ht
  obtain ⟨u', hu', rfl⟩ := ht'
  obtain rfl : u = u' := Option.some.inj (hu.symm.trans hu')
  apply List.map_congr_left
  intro b hb
  exact HashTree.eq_of_root_mapLeaves_eq (hroot.trans hroot'.symm) hcf (h.mem_leaves places p u hsep hu b hb)

namespace BinaryMerkle

open HashTree

variable (H : Hashing δ)

/-! ### The tree of a list -/

def mergeRow : List (HashTree δ) → List (HashTree δ)
  | l :: r :: ts => node l r :: mergeRow ts
  | ts => ts

/-- Merges rows until one node is left; `n` bounds the number of rows. -/
def merkelize : ℕ → List (HashTree δ) → HashTree δ
  | _, [] => given H.empty
  | _, [t] => t
  | 0, t :: _ => t
  | n + 1, ts => merkelize n (mergeRow ts)

def tree (bs : List Bytes) : HashTree δ := merkelize H bs.length (bs.map leaf)

def merkleRoot (bs : List Bytes) : δ := (tree H bs).root H

private theorem flatMap_mergeRow {β : Type} (f : HashTree δ → List β)
    (hf : ∀ l r, f (node l r) = f l ++ f r) (ts : List (HashTree δ)) : (mergeRow ts).flatMap f = ts.flatMap f := by
  induction ts using mergeRow.induct with
  | case1 l r ts ih => simp [mergeRow, ih, hf]
  | case2 ts h => rw [mergeRow]; exact h

theorem length_mergeRow (ts : List (HashTree δ)) : (mergeRow ts).length = (ts.length + 1) / 2 := by
  induction ts using mergeRow.induct with
  | case1 l r ts ih => simp only [mergeRow, List.length_cons, ih]; omega
  | case2 ts h =>
    rw [mergeRow]
    · rcases ts with _ | ⟨a, _ | ⟨b, ts⟩⟩
      · simp
      · simp
      · exact absurd rfl (h a b ts)
    · exact h

/-- What a node contributes and a pair of nodes contributes together, the whole tree contributes row by row. -/
private theorem merkelize_flatMap {β : Type} (f : HashTree δ → List β)
    (hf : ∀ l r, f (node l r) = f l ++ f r) {n : ℕ} {ts : List (HashTree δ)} (hne : ts ≠ [])
    (hn : ts.length ≤ n + 1) : f (merkelize H n ts) = ts.flatMap f := by
  induction n generalizing ts with
  | zero =>
    rcases ts with _ | ⟨a, _ | ⟨b, ts⟩⟩
    · exact absurd rfl hne
    · simp [merkelize]
    · simp at hn
  | succ n ih =>
    rcases ts with _ | ⟨a, _ | ⟨b, ts⟩⟩
    · exact absurd rfl hne
    · simp [merkelize]
    · rw [merkelize]
      · rw [ih (by simp [mergeRow]) (by rw [length_mergeRow]; omega), flatMap_mergeRow f hf]
      · simp
      · simp

/-- The leaves of the tree are the committed strings, in order. -/
theorem leaves_tree (bs : List Bytes) : (tree H bs).leaves = bs := by
  rcases List.eq_nil_or_concat bs with rfl | ⟨_, _, rfl⟩
  · rfl
  · rw [tree, merkelize_flatMap H leaves (fun _ _ => rfl) (by simp) (by simp)]
    simp [List.flatMap_map, leaves]

/-- Only the tree of no strings has a digest without a preimage. -/
theorem givens_tree_eq_nil {bs : List Bytes} (h : bs ≠ []) : (tree H bs).givens = [] := by
  rw [tree, merkelize_flatMap H givens (fun _ _ => rfl) (by simpa using h) (by simp)]
  simp [List.flatMap_map, givens]

theorem givens_tree {bs : List Bytes} {d : δ} (h : d ∈ (tree H bs).givens) : d = H.empty := by
  by_cases hbs : bs = []
  · subst hbs
    simpa [tree, merkelize, givens] using h
  · rw [givens_tree_eq_nil H hbs] at h
    cases h

/-! ### Checking a proof -/

/-- One step of the fold: the sibling goes to the left of a node at an odd position or at the end of its row. -/
def combine (a b : δ) (position width : ℕ) : δ :=
  if position % 2 = 1 ∨ position + 1 = width then H.hash (H.pair b a) else H.hash (H.pair a b)

def computeRoot : δ → List δ → ℕ → ℕ → δ
  | a, [], _, _ => a
  | a, b :: proof, position, width =>
    computeRoot (combine H a b position width) proof (position / 2) ((width - 1) / 2 + 1)

/-- The proof has no other check than that the index lies below the claimed number of leaves. -/
def verifyProof [DecidableEq δ] (root : δ) (proof : List δ) (numberOfLeaves leafIndex : UInt32) (leaf : Bytes) : Bool :=
  if leafIndex ≥ numberOfLeaves then false
  else root = computeRoot H (H.hash leaf) proof leafIndex.toNat numberOfLeaves.toNat

/-- The tree behind `computeRoot`. -/
def proofTree : HashTree δ → List δ → ℕ → ℕ → HashTree δ
  | t, [], _, _ => t
  | t, b :: proof, position, width =>
    proofTree (if position % 2 = 1 ∨ position + 1 = width then node (given b) t else node t (given b)) proof
      (position / 2) ((width - 1) / 2 + 1)

theorem root_proofTree (t : HashTree δ) (proof : List δ) (position width : ℕ) :
    (proofTree t proof position width).root H = computeRoot H (t.root H) proof position width := by
  induction proof generalizing t position width with
  | nil => rfl
  | cons b proof ih =>
    simp only [proofTree, computeRoot, combine, ih]
    split <;> rfl

theorem leaves_proofTree (t : HashTree δ) (proof : List δ) (position width : ℕ) :
    (proofTree t proof position width).leaves = t.leaves := by
  induction proof generalizing t position width with
  | nil => rfl
  | cons b proof ih =>
    simp only [proofTree, ih]
    split <;> simp [leaves]

/-- A proof of one leaf, with the shape of the tree as the prover claims it. -/
structure Proof (δ : Type) where
  proof : List δ
  numberOfLeaves : UInt32
  leafIndex : UInt32
  leaf : Bytes

def checkedTree (p : Proof δ) : HashTree δ :=
  proofTree (leaf p.leaf) p.proof p.leafIndex.toNat p.numberOfLeaves.toNat

/-- An accepted leaf is hashed into the root. -/
theorem verifyProof_recomputes [DecidableEq δ] :
    Recomputes H (fun root (p : Proof δ) => verifyProof H root p.proof p.numberOfLeaves p.leafIndex p.leaf)
      checkedTree (fun p => [p.leaf]) := by
  intro root p h
  simp only [verifyProof] at h
  split at h
  · cases h
  · refine ⟨?_, ?_⟩
    · rw [checkedTree, root_proofTree]
      exact (of_decide_eq_true h).symm
    · simp [checkedTree, leaves_proofTree, leaves]

/-- The proof of the only leaf of a tree is empty. -/
theorem verifyProof_sole [DecidableEq δ] {root : δ} {b : Bytes} (h : H.hash b = root) :
    verifyProof H root [] 1 0 b = true := by
  simp [verifyProof, computeRoot, h]

/-! ### Making a proof -/

/-- The sibling of a position in its row; the last node of a row of odd length has none. -/
def sibling (ts : List (HashTree δ)) (i : ℕ) : Option (HashTree δ) := ts[if i % 2 = 1 then i - 1 else i + 1]?

/-- The roots of the siblings on the way up; `n` bounds the number of rows. -/
def siblings : ℕ → List (HashTree δ) → ℕ → List δ
  | n + 1, l :: r :: ts, i =>
    ((sibling (l :: r :: ts) i).map (root H)).toList ++ siblings n (mergeRow (l :: r :: ts)) (i / 2)
  | _, _, _ => []

theorem getElem?_mergeRow (ts : List (HashTree δ)) (i : ℕ) :
    (mergeRow ts)[i]? = match ts[2 * i]?, ts[2 * i + 1]? with
      | some l, some r => some (node l r)
      | o, _ => o := by
  induction ts using mergeRow.induct generalizing i with
  | case1 l r ts ih =>
    cases i with
    | zero => rfl
    | succ i => simp [mergeRow, ih, Nat.mul_succ]
  | case2 ts h =>
    rcases ts with _ | ⟨a, _ | ⟨b, ts⟩⟩
    · simp [mergeRow]
    · cases i <;> simp [mergeRow, Nat.mul_succ]
    · exact absurd rfl (h a b ts)

/-- Once a position is the last of its row it stays so, and then every sibling goes to the left: the check does not
notice a row in which the node had no sibling. -/
private theorem computeRoot_last (a : δ) (proof : List δ) {position width position' width' : ℕ}
    (h : position + 1 = width) (h' : position' + 1 = width') :
    computeRoot H a proof position width = computeRoot H a proof position' width' := by
  induction proof generalizing a position width position' width' with
  | nil => rfl
  | cons b proof ih =>
    simp only [computeRoot, combine, h, h', or_true, ↓reduceIte]
    exact ih _ (by omega) (by omega)

/-- One row of the check takes a node to its parent. -/
private theorem computeRoot_row {row : List (HashTree δ)} {i : ℕ} {t : HashTree δ} (h2 : 2 ≤ row.length)
    (ht : row[i]? = some t) (proof : List δ) :
    ∃ t', (mergeRow row)[i / 2]? = some t' ∧
      computeRoot H (t.root H) (((sibling row i).map (root H)).toList ++ proof) i row.length =
        computeRoot H (t'.root H) proof (i / 2) (mergeRow row).length := by
  have hi : i < row.length := (List.getElem?_eq_some_iff.1 ht).1
  have hlen : (mergeRow row).length = (row.length - 1) / 2 + 1 := by
    rw [length_mergeRow]
    omega
  by_cases hodd : i % 2 = 1
  · obtain ⟨s, hs⟩ : ∃ s, row[i - 1]? = some s := ⟨row[i - 1], List.getElem?_eq_getElem (by omega)⟩
    refine ⟨node s t, ?_, ?_⟩
    · rw [getElem?_mergeRow, show 2 * (i / 2) = i - 1 by omega, show i - 1 + 1 = i by omega, hs, ht]
    · simp [sibling, hodd, hs, computeRoot, combine, hlen, HashTree.root]
  · by_cases hlast : i + 1 = row.length
    · have hnone : row[i + 1]? = none := List.getElem?_eq_none (by omega)
      refine ⟨t, ?_, ?_⟩
      · rw [getElem?_mergeRow, show 2 * (i / 2) = i by omega, hnone, ht]
      · simp only [sibling, hodd, ↓reduceIte, hnone, Option.map_none, Option.toList_none, List.nil_append]
        exact computeRoot_last H _ _ hlast (by omega)
    · obtain ⟨s, hs⟩ : ∃ s, row[i + 1]? = some s := ⟨row[i + 1], List.getElem?_eq_getElem (by omega)⟩
      refine ⟨node t s, ?_, ?_⟩
      · rw [getElem?_mergeRow, show 2 * (i / 2) = i by omega, hs, ht]
      · simp [sibling, hodd, hs, hlast, computeRoot, combine, hlen, HashTree.root]

private theorem computeRoot_siblings {n : ℕ} (ts : List (HashTree δ)) {i : ℕ} {t : HashTree δ}
    (hn : ts.length ≤ n + 1) (ht : ts[i]? = some t) :
    computeRoot H (t.root H) (siblings H n ts i) i ts.length = (merkelize H n ts).root H := by
  induction n generalizing ts i t with
  | zero =>
    rcases ts with _ | ⟨a, _ | ⟨b, ts⟩⟩
    · cases ht
    · simp only [List.getElem?_singleton, Option.ite_none_right_eq_some, Option.some.injEq] at ht
      rw [ht.2]
      rfl
    · simp at hn
  | succ n ih =>
    rcases ts with _ | ⟨a, _ | ⟨b, ts⟩⟩
    · cases ht
    · simp only [List.getElem?_singleton, Option.ite_none_right_eq_some, Option.some.injEq] at ht
      rw [ht.2]
      rfl
    · have hm : merkelize H (n + 1) (a :: b :: ts) = merkelize H n (mergeRow (a :: b :: ts)) := by
        rw [merkelize] <;> simp
      obtain ⟨t', ht', hroot⟩ := computeRoot_row H (by simp) ht (siblings H n (mergeRow (a :: b :: ts)) (i / 2))
      rw [hm, siblings, hroot]
      exact ih _ (by rw [length_mergeRow]; omega) ht'

/-- The siblings from a leaf of the tree up are accepted as a proof of that leaf. -/
theorem verifyProof_siblings [DecidableEq δ] (bs : List Bytes) (hlen : bs.length < 2 ^ 32) {i : UInt32} {b : Bytes}
    (hb : bs[i.toNat]? = some b) :
    verifyProof H (merkleRoot H bs) (siblings H bs.length (bs.map leaf) i.toNat) (UInt32.ofNat bs.length) i b =
      true := by
  have hi := (List.getElem?_eq_some_iff.1 hb).1
  have hnat : (UInt32.ofNat bs.length).toNat = bs.length := UInt32.toNat_ofNat_of_lt' hlen
  have hroot := computeRoot_siblings H (n := bs.length) (bs.map leaf) (i := i.toNat) (t := leaf b) (by simp)
    (by simp [hb])
  have hlt : ¬ i ≥ UInt32.ofNat bs.length := by
    rw [ge_iff_le, UInt32.le_iff_toNat_le, hnat]
    omega
  rw [List.length_map] at hroot
  simp only [verifyProof, hlt, ↓reduceIte, hnat, decide_eq_true_eq]
  exact hroot.symm

end BinaryMerkle

namespace Mmr

open HashTree

variable (H : Hashing δ)

/-! ### The range of a list -/

/-- Adds a perfect tree of height `h` to the right; peaks are listed from right to left, equal heights merge. -/
def pushPeak : ℕ → HashTree δ → List (ℕ × HashTree δ) → List (ℕ × HashTree δ)
  | h, t, [] => [(h, t)]
  | h, t, (h', t') :: ps => if h = h' then pushPeak (h + 1) (node t' t) ps else (h, t) :: (h', t') :: ps

def peaks (bs : List Bytes) : List (ℕ × HashTree δ) := bs.foldl (fun ps b => pushPeak 0 (leaf b) ps) []

/-- Peaks are bagged from right to left, the part already bagged first. -/
def bag : List (HashTree δ) → HashTree δ
  | [] => given H.empty
  | t :: ts => ts.foldl node t

def tree (bs : List Bytes) : HashTree δ := bag H ((peaks bs).map Prod.snd)

def mmrRoot (bs : List Bytes) : δ := (tree H bs).root H

theorem mmrRoot_pair (b c : Bytes) : mmrRoot H [b, c] = H.hash (H.pair (H.hash b) (H.hash c)) := rfl

private theorem mem_pushPeak {β : Type} {f : HashTree δ → List β} (hf : ∀ l r, f (node l r) = f l ++ f r) {x : β}
    (h : ℕ) (t : HashTree δ) (ps : List (ℕ × HashTree δ)) :
    (∃ p ∈ pushPeak h t ps, x ∈ f p.2) ↔ x ∈ f t ∨ ∃ p ∈ ps, x ∈ f p.2 := by
  induction ps generalizing h t with
  | nil => simp [pushPeak]
  | cons p ps ih =>
    obtain ⟨h', t'⟩ := p
    simp only [pushPeak]
    split
    · simp only [ih, hf, List.mem_append, List.mem_cons, exists_eq_or_imp]
      tauto
    · simp

private theorem mem_peaks {β : Type} {f : HashTree δ → List β} (hf : ∀ l r, f (node l r) = f l ++ f r) {x : β}
    (bs : List Bytes) (ps : List (ℕ × HashTree δ)) :
    (∃ p ∈ bs.foldl (fun ps b => pushPeak 0 (leaf b) ps) ps, x ∈ f p.2) ↔
      (∃ b ∈ bs, x ∈ f (leaf b)) ∨ ∃ p ∈ ps, x ∈ f p.2 := by
  induction bs generalizing ps with
  | nil => simp
  | cons b bs ih =>
    rw [List.foldl_cons, ih, mem_pushPeak hf]
    simp only [List.mem_cons, exists_eq_or_imp]
    rw [or_left_comm, or_assoc]

private theorem mem_foldl_node {β : Type} {f : HashTree δ → List β} (hf : ∀ l r, f (node l r) = f l ++ f r) {x : β}
    (t : HashTree δ) (ts : List (HashTree δ)) : x ∈ f (ts.foldl node t) ↔ x ∈ f t ∨ ∃ u ∈ ts, x ∈ f u := by
  induction ts generalizing t with
  | nil => simp
  | cons u ts ih =>
    rw [List.foldl_cons, ih, hf]
    simp only [List.mem_append, List.mem_cons, exists_eq_or_imp]
    tauto

private theorem peaks_ne_nil {bs : List Bytes} (h : bs ≠ []) : (peaks bs : List (ℕ × HashTree δ)) ≠ [] := by
  intro he
  obtain ⟨b, hb⟩ := List.exists_mem_of_ne_nil bs h
  have := (mem_peaks (f := (leaves : HashTree δ → List Bytes)) (fun _ _ => rfl) (x := b) bs []).2
    (Or.inl ⟨b, hb, by simp [leaves]⟩)
  rw [show bs.foldl (fun ps b => pushPeak 0 (leaf b) ps) [] = peaks bs from rfl, he] at this
  simp at this

private theorem mem_tree {β : Type} {f : HashTree δ → List β} (hf : ∀ l r, f (node l r) = f l ++ f r) {x : β}
    {bs : List Bytes} (h : bs ≠ []) : x ∈ f (tree H bs) ↔ ∃ b ∈ bs, x ∈ f (leaf b) := by
  have hp := mem_peaks hf (x := x) bs []
  rw [show bs.foldl (fun ps b => pushPeak 0 (leaf b) ps) [] = peaks bs from rfl] at hp
  obtain ⟨p, ps, hps⟩ := List.exists_cons_of_ne_nil (peaks_ne_nil (δ := δ) h)
  have hmap : (∃ u ∈ ps.map Prod.snd, x ∈ f u) ↔ ∃ q ∈ ps, x ∈ f q.2 := by
    constructor
    · rintro ⟨u, hu, hx⟩
      obtain ⟨q, hq, rfl⟩ := List.mem_map.1 hu
      exact ⟨q, hq, hx⟩
    · rintro ⟨q, hq, hx⟩
      exact ⟨q.2, List.mem_map_of_mem hq, hx⟩
  rw [tree, hps, List.map_cons, bag, mem_foldl_node hf, hmap]
  rw [hps] at hp
  simpa only [List.mem_cons, exists_eq_or_imp, List.not_mem_nil, false_and, exists_false, or_false] using hp

/-- The leaves of the range of a non-empty list are the committed strings. -/
theorem mem_leaves_tree {bs : List Bytes} (h : bs ≠ []) {b : Bytes} : b ∈ (tree H bs).leaves ↔ b ∈ bs := by
  rw [mem_tree H (fun _ _ => rfl) h]
  simp [leaves]

theorem givens_tree {bs : List Bytes} (h : bs ≠ []) : (tree H bs).givens = [] := by
  rw [List.eq_nil_iff_forall_not_mem]
  intro d hd
  rw [mem_tree H (fun _ _ => rfl) h] at hd
  simp [givens] at hd

/-! ### Checking a proof -/

/-- Leaf positions in a range of `leafCount` leaves, and the digests of the nodes that cannot be recomputed. -/
structure Proof (δ : Type) where
  leafIndices : List UInt64
  leafCount : UInt64
  items : List δ
  deriving DecidableEq

/-- No two of `n` leaves are put at the same position.  Positions are computed in 64 bits, so that distinct indices are
at distinct positions only below `2 ^ 63`. -/
def Proof.Separates (p : Proof δ) (n : ℕ) : Prop :=
  n ≤ 1 ∨ (p.leafIndices.Nodup ∧ ∀ i ∈ p.leafIndices, i.toNat < 2 ^ 63)

instance (p : Proof δ) (n : ℕ) : Decidable (p.Separates n) := inferInstanceAs (Decidable (_ ∨ _))

/-- The nodes of one row, with their positions in it, and the digests not yet used. -/
abbrev Row (δ : Type) := List (ℕ × HashTree δ) × List δ

/-- The parents of the nodes of a row.  A node whose sibling is not the next one takes the next digest of the proof. -/
def parents : List (ℕ × HashTree δ) → List δ → Option (Row δ)
  | [], ds => some ([], ds)
  | [(i, t)], d :: ds =>
    some ([(i / 2, if i % 2 = 1 then node (given d) t else node t (given d))], ds)
  | [_], [] => none
  | (i, t) :: (j, u) :: row, ds =>
    if i % 2 = 0 ∧ j = i + 1 then (parents row ds).map fun r => ((i / 2, node t u) :: r.1, r.2)
    else match ds with
      | [] => none
      | d :: ds =>
        (parents ((j, u) :: row) ds).map fun r =>
          ((i / 2, if i % 2 = 1 then node (given d) t else node t (given d)) :: r.1, r.2)

/-- The root of a perfect tree of the given height, from nodes of its lowest row. -/
def peakTree : ℕ → List (ℕ × HashTree δ) → List δ → Option (HashTree δ × List δ)
  | 0, [(_, t)], ds => some (t, ds)
  | 0, _, _ => none
  | h + 1, row, ds => (parents row ds).bind fun r => peakTree h r.1 r.2

/-- The heights of the peaks, from left to right. -/
def peakHeights (leafCount : ℕ) : List ℕ := (List.range 64).reverse.filter fun h => leafCount.testBit h

/-- The peaks from left to right, with the leaves and digests left over.  The peaks to the right of the last leaf may be
given as one bagged digest. -/
def peakTrees : List ℕ → ℕ → List (ℕ × HashTree δ) → List δ → Option (List (HashTree δ) × Row δ)
  | [], _, row, ds => some ([], row, ds)
  | h :: hs, first, row, ds =>
    let mine := row.takeWhile fun p => p.1 < first + 2 ^ h
    let rest := row.dropWhile fun p => p.1 < first + 2 ^ h
    match mine, ds with
    | [], [] => some ([], rest, [])
    | [], d :: ds => (peakTrees hs (first + 2 ^ h) rest ds).map fun r => (given d :: r.1, r.2)
    | _ :: _, ds =>
      (peakTree h (mine.map fun p => (p.1 - first, p.2)) ds).bind fun q =>
        (peakTrees hs (first + 2 ^ h) rest q.2).map fun r => (q.1 :: r.1, r.2)

/-- The leaves in the order of their indices; of several leaves with the same index the first is kept. -/
def leafRow (is : List UInt64) (bs : List Bytes) : List (UInt64 × Bytes) :=
  ((is.zip bs).insertionSort fun x y => x.1 ≤ y.1).destutter fun x y => x.1 ≠ y.1

/-- The peaks are bagged when all leaves are used up, and at most one digest is left for the peaks on the right. -/
def bagPeaks : List (HashTree δ) × Row δ → Option (HashTree δ)
  | ([], [], []) => none
  | (ts, [], []) => some (bag H ts.reverse)
  | (ts, [], [d]) => some (bag H (given d :: ts.reverse))
  | _ => none

/-- The tree a proof stands for.  The only leaf of a range is its own root and is not hashed, so that no digest is
recomputed from it. -/
def proofTree (bs : List Bytes) (p : Proof δ) : Option (HashTree δ) :=
  if bs.length ≠ p.leafIndices.length ∨ (p.leafCount = 1 ∧ p.leafIndices = [0]) then none
  else
    let row := (leafRow p.leafIndices bs).map fun x => (x.1.toNat, leaf x.2)
    ((peakTrees (peakHeights p.leafCount.toNat) 0 row p.items).bind (bagPeaks H)).filter fun t => !t.isLeaf

def verifyLeavesProof [DecidableEq δ] (root : δ) (bs : List Bytes) (p : Proof δ) : Bool :=
  match proofTree H bs p with
  | some t => t.root H = root
  | none => false

private theorem leaves_parents {row : List (ℕ × HashTree δ)} {ds : List δ} {r : Row δ}
    (h : parents row ds = some r) : r.1.flatMap (fun p => p.2.leaves) = row.flatMap (fun p => p.2.leaves) := by
  induction row, ds using parents.induct generalizing r with
  | case1 ds => cases h; rfl
  | case2 i t d ds =>
    cases h
    simp only [List.flatMap_cons, List.flatMap_nil, List.append_nil]
    split <;> simp [leaves]
  | case3 => cases h
  | case4 ds i t j u row hc ih =>
    simp only [parents, hc, and_self, ↓reduceIte, Option.map_eq_some_iff] at h
    obtain ⟨r, hr, rfl⟩ := h
    simp [ih hr, leaves]
  | case5 i t j u row hc =>
    simp [parents, hc] at h
  | case6 i t j u row hc d ds ih =>
    simp only [parents, hc, ↓reduceIte, Option.map_eq_some_iff] at h
    obtain ⟨r, hr, rfl⟩ := h
    simp only [List.flatMap_cons] at ih ⊢
    rw [ih hr]
    split <;> simp [leaves]

private theorem leaves_peakTree {h : ℕ} {row : List (ℕ × HashTree δ)} {ds : List δ} {q : HashTree δ × List δ}
    (hq : peakTree h row ds = some q) : q.1.leaves = row.flatMap (fun p => p.2.leaves) := by
  induction h generalizing row ds with
  | zero =>
    rcases row with _ | ⟨p, _ | ⟨p', row⟩⟩
    · cases hq
    · cases hq; simp
    · cases hq
  | succ h ih =>
    simp only [peakTree, Option.bind_eq_some_iff] at hq
    obtain ⟨r, hr, hq⟩ := hq
    rw [ih hq, leaves_parents hr]

private theorem leaves_peakTrees {hs : List ℕ} {first : ℕ} {row : List (ℕ × HashTree δ)} {ds : List δ}
    {r : List (HashTree δ) × Row δ} (h : peakTrees hs first row ds = some r) :
    r.1.flatMap leaves ++ r.2.1.flatMap (fun p => p.2.leaves) = row.flatMap (fun p => p.2.leaves) := by
  induction hs generalizing first row ds r with
  | nil => cases h; rfl
  | cons k hs ih =>
    -- the leaves of this peak and the remaining ones make up the row
    have hsplit :=
      List.takeWhile_append_dropWhile (p := fun p : ℕ × HashTree δ => decide (p.1 < first + 2 ^ k)) (l := row)
    simp only [peakTrees] at h
    split at h
    · rename_i hm
      cases h
      rw [hm, List.nil_append] at hsplit
      simp [hsplit]
    · rename_i hm
      simp only [Option.map_eq_some_iff] at h
      obtain ⟨r, hr, rfl⟩ := h
      rw [hm, List.nil_append] at hsplit
      simpa [leaves, hsplit] using ih hr
    · rename_i q qs ds' hm
      simp only [Option.bind_eq_some_iff, Option.map_eq_some_iff] at h
      obtain ⟨q, hq, r, hr, rfl⟩ := h
      have hpeak := leaves_peakTree hq
      rw [List.flatMap_map] at hpeak
      have hrest := ih hr
      rw [← hsplit, List.flatMap_append, ← hrest, List.flatMap_cons, hpeak, List.append_assoc]

private theorem mem_leaves_bag {ts : List (HashTree δ)} {b : Bytes} (h : ∃ t ∈ ts, b ∈ t.leaves) :
    b ∈ (bag H ts).leaves := by
  obtain ⟨t, ht, hb⟩ := h
  cases ts with
  | nil => cases ht
  | cons u ts =>
    rw [bag, mem_foldl_node (fun _ _ => rfl)]
    rcases List.mem_cons.1 ht with rfl | ht
    · exact Or.inl hb
    · exact Or.inr ⟨t, ht, hb⟩

private theorem mem_leaves_bagPeaks {r : List (HashTree δ) × Row δ} {t : HashTree δ} (h : bagPeaks H r = some t)
    {b : Bytes} (hb : b ∈ r.1.flatMap leaves ++ r.2.1.flatMap (fun p => p.2.leaves)) : b ∈ t.leaves := by
  obtain ⟨ts, row, ds⟩ := r
  unfold bagPeaks at h
  split at h
  · cases h
  · rename_i heq
    cases heq
    cases h
    apply mem_leaves_bag
    simpa using hb
  · rename_i heq
    cases heq
    cases h
    obtain ⟨u, hu, hbu⟩ : ∃ u ∈ ts, b ∈ u.leaves := by simpa using hb
    exact mem_leaves_bag H ⟨u, by simp [hu], hbu⟩
  · cases h

/-- Leaves at distinct indices are all kept. -/
theorem leafRow_of_nodup {is : List UInt64} {bs : List Bytes} (hlen : bs.length = is.length) (hnodup : is.Nodup) :
    leafRow is bs = (is.zip bs).insertionSort fun x y => x.1 ≤ y.1 := by
  have hzip : (is.zip bs).Pairwise fun x y => x.1 ≠ y.1 := by
    rw [← List.pairwise_map (f := Prod.fst) (R := fun i j : UInt64 => i ≠ j), List.map_fst_zip hlen.ge]
    exact hnodup
  have hsorted : ((is.zip bs).insertionSort fun x y => x.1 ≤ y.1).Pairwise fun x y => x.1 ≠ y.1 :=
    hzip.perm (List.perm_insertionSort _ _).symm fun h => h.symm
  exact List.destutter_of_isChain _ _ hsorted.isChain

/-- All leaves of an accepted proof are hashed into the root, whatever distinct positions are claimed for them. -/
theorem mem_leaves_proofTree {bs : List Bytes} {p : Proof δ} {t : HashTree δ} (hsep : p.Separates bs.length)
    (h : proofTree H bs p = some t) {b : Bytes} (hb : b ∈ bs) : b ∈ t.leaves := by
  unfold proofTree at h
  split at h
  · cases h
  · rename_i hlen
    obtain ⟨hlen, -⟩ := not_or.1 hlen
    rw [ne_eq, not_not] at hlen
    have hnodup : p.leafIndices.Nodup := by
      rcases hsep with hone | ⟨hnodup, -⟩
      · rw [hlen] at hone
        exact List.nodup_iff_count_le_one.2 fun i => List.count_le_length.trans hone
      · exact hnodup
    obtain ⟨hsome, -⟩ := Option.filter_eq_some_iff.1 h
    obtain ⟨r, hr, ht⟩ := Option.bind_eq_some_iff.1 hsome
    apply mem_leaves_bagPeaks H ht
    rw [leaves_peakTrees hr, List.flatMap_map]
    obtain ⟨n, hn, rfl⟩ := List.mem_iff_getElem.1 hb
    have hzip : (p.leafIndices[n], bs[n]) ∈ p.leafIndices.zip bs :=
      List.mem_iff_getElem.2 ⟨n, by simp; omega, by simp⟩
    refine List.mem_flatMap.2 ⟨(p.leafIndices[n], bs[n]), ?_, by simp [leaves]⟩
    rw [leafRow_of_nodup hlen hnodup]
    exact (List.mem_insertionSort _).2 hzip

/-! ### The tree of a proof over other leaves -/

section MapLeaves

variable (f : Bytes → Bytes)

private def mapRow (row : List (ℕ × HashTree δ)) : List (ℕ × HashTree δ) := row.map fun p => (p.1, p.2.mapLeaves f)

private theorem parents_mapRow (row : List (ℕ × HashTree δ)) (ds : List δ) :
    parents (mapRow f row) ds = (parents row ds).map fun r => (mapRow f r.1, r.2) := by
  induction row, ds using parents.induct with
  | case1 ds => rfl
  | case2 i t d ds =>
    simp only [mapRow, List.map_cons, List.map_nil, parents, Option.map_some]
    split <;> rfl
  | case3 => rfl
  | case4 ds i t j u row hc ih =>
    simp only [mapRow, List.map_cons, parents, hc, and_self, ↓reduceIte, Option.map_map] at ih ⊢
    rw [ih, Option.map_map]
    rfl
  | case5 i t j u row hc => simp only [mapRow, List.map_cons, parents, hc, ↓reduceIte, Option.map_none]
  | case6 i t j u row hc d ds ih =>
    simp only [mapRow, List.map_cons, parents, hc, ↓reduceIte, Option.map_map] at ih ⊢
    rw [ih, Option.map_map]
    split <;> rfl

private theorem peakTree_mapRow (h : ℕ) (row : List (ℕ × HashTree δ)) (ds : List δ) :
    peakTree h (mapRow f row) ds = (peakTree h row ds).map fun q => (q.1.mapLeaves f, q.2) := by
  induction h generalizing row ds with
  | zero =>
    rcases row with _ | ⟨p, _ | ⟨p', row⟩⟩
    · rfl
    · rfl
    · rfl
  | succ h ih =>
    simp only [peakTree, parents_mapRow]
    cases parents row ds with
    | none => rfl
    | some r => exact ih r.1 r.2

private theorem peakTrees_mapRow (hs : List ℕ) (first : ℕ) (row : List (ℕ × HashTree δ)) (ds : List δ) :
    peakTrees hs first (mapRow f row) ds =
      (peakTrees hs first row ds).map fun r => (r.1.map (mapLeaves f), mapRow f r.2.1, r.2.2) := by
  induction hs generalizing first row ds with
  | nil => rfl
  | cons k hs ih =>
    have htake : (mapRow f row).takeWhile (fun p => decide (p.1 < first + 2 ^ k)) =
        mapRow f (row.takeWhile fun p => decide (p.1 < first + 2 ^ k)) := List.takeWhile_map
    have hdrop : (mapRow f row).dropWhile (fun p => decide (p.1 < first + 2 ^ k)) =
        mapRow f (row.dropWhile fun p => decide (p.1 < first + 2 ^ k)) := List.dropWhile_map
    simp only [peakTrees, htake, hdrop]
    generalize row.takeWhile (fun p => decide (p.1 < first + 2 ^ k)) = mine
    generalize row.dropWhile (fun p => decide (p.1 < first + 2 ^ k)) = rest
    cases mine with
    | nil =>
      cases ds with
      | nil => rfl
      | cons d ds =>
        simp only [mapRow, List.map_nil, Option.map_map] at ih ⊢
        rw [ih, Option.map_map]
        rfl
    | cons p mine =>
      have hshift : (mapRow f (p :: mine)).map (fun p => (p.1 - first, p.2)) =
          mapRow f ((p :: mine).map fun p => (p.1 - first, p.2)) := by
        simp [mapRow]
      have hcons : ∃ p' mine', mapRow f (p :: mine) = p' :: mine' := ⟨_, _, rfl⟩
      obtain ⟨p', mine', hmine⟩ := hcons
      rw [hmine] at hshift ⊢
      simp only [hshift, peakTree_mapRow]
      cases peakTree k ((p :: mine).map fun p => (p.1 - first, p.2)) ds with
      | none => rfl
      | some q =>
        simp only [Option.map_some, Option.bind_some, ih, Option.map_map]
        rfl

private theorem foldl_node_map (t : HashTree δ) (ts : List (HashTree δ)) :
    (ts.map (mapLeaves f)).foldl node (t.mapLeaves f) = (ts.foldl node t).mapLeaves f := by
  induction ts generalizing t with
  | nil => rfl
  | cons u ts ih => exact ih (node t u)

private theorem bag_map (ts : List (HashTree δ)) : bag H (ts.map (mapLeaves f)) = (bag H ts).mapLeaves f := by
  cases ts with
  | nil => rfl
  | cons t ts => exact foldl_node_map f t ts

private theorem leafRow_map (is : List UInt64) (bs : List Bytes) :
    leafRow is (bs.map f) = (leafRow is bs).map fun x => (x.1, f x.2) := by
  have hsort : ((is.zip (bs.map f)).insertionSort fun x y => x.1 ≤ y.1) =
      ((is.zip bs).insertionSort fun x y => x.1 ≤ y.1).map fun x => (x.1, f x.2) := by
    rw [List.map_insertionSort (fun x y : UInt64 × Bytes => x.1 ≤ y.1) (fun x y => x.1 ≤ y.1) _ _
      fun _ _ _ _ => Iff.rfl, List.zip_map_right]
    rfl
  have hdestutter (l : List (UInt64 × Bytes)) : ((l.destutter fun x y => x.1 ≠ y.1).map fun x => (x.1, f x.2)) =
      (l.map fun x => (x.1, f x.2)).destutter fun x y => x.1 ≠ y.1 := by
    apply List.map_destutter
    exact fun _ _ _ _ => Iff.rfl
  rw [leafRow, leafRow, hsort, hdestutter]

private theorem bagPeaks_map (ts : List (HashTree δ)) (row : List (ℕ × HashTree δ)) (ds : List δ) :
    bagPeaks H (ts.map (mapLeaves f), mapRow f row, ds) = (bagPeaks H (ts, row, ds)).map (mapLeaves f) := by
  rcases row with _ | ⟨x, row⟩
  · rcases ds with _ | ⟨d, _ | ⟨d', ds⟩⟩
    · rcases ts with _ | ⟨t, ts⟩
      · rfl
      · show some (bag H ((t :: ts).map (mapLeaves f)).reverse) = some ((bag H (t :: ts).reverse).mapLeaves f)
        rw [← List.map_reverse, bag_map]
    · have hbag : bag H (given d :: (ts.map (mapLeaves f)).reverse) = (bag H (given d :: ts.reverse)).mapLeaves f := by
        rw [← List.map_reverse, ← bag_map]
        rfl
      rcases ts with _ | ⟨t, ts⟩
      · exact congrArg some hbag
      · exact congrArg some hbag
    · rcases ts with _ | ⟨t, ts⟩ <;> rfl
  · rcases ts with _ | ⟨t, ts⟩ <;> rfl

/-- A check looks at its leaves only to hash them. -/
theorem proofTree_map (bs : List Bytes) (p : Proof δ) :
    proofTree H (bs.map f) p = (proofTree H bs p).map (mapLeaves f) := by
  unfold proofTree
  rw [List.length_map]
  split
  · rfl
  · have hrow : ((leafRow p.leafIndices (bs.map f)).map fun x => (x.1.toNat, (leaf x.2 : HashTree δ))) =
        mapRow f ((leafRow p.leafIndices bs).map fun x => (x.1.toNat, leaf x.2)) := by
      rw [leafRow_map, mapRow, List.map_map, List.map_map]
      rfl
    simp only [hrow, peakTrees_mapRow]
    cases peakTrees (peakHeights p.leafCount.toNat) 0 _ p.items with
    | none => rfl
    | some r =>
      simp only [Option.map_some, Option.bind_some, bagPeaks_map]
      cases bagPeaks H r with
      | none => rfl
      | some t => simp [Option.filter_some, isLeaf_mapLeaves, apply_ite]

end MapLeaves

/-- The tree of a proof that stands for one, and an arbitrary tree otherwise. -/
def checkedTree (p : List Bytes × Proof δ) : HashTree δ := (proofTree H p.1 p.2).getD (given H.empty)

/-- The leaves that an accepted proof is sure to open: all of them, when no two are at the same position. -/
def opened (p : List Bytes × Proof δ) : List Bytes := if p.2.Separates p.1.length then p.1 else []

theorem verifyLeavesProof_recomputes [DecidableEq δ] :
    Recomputes H (fun root (p : List Bytes × Proof δ) => verifyLeavesProof H root p.1 p.2) (checkedTree H) opened := by
  intro root p h
  simp only [verifyLeavesProof] at h
  split at h
  · rename_i t ht
    simp only [checkedTree, ht, Option.getD_some]
    refine ⟨of_decide_eq_true h, fun b hb => ?_⟩
    unfold opened at hb
    split at hb
    · rename_i hsep
      exact mem_leaves_proofTree H hsep ht hb
    · cases hb
  · cases h

theorem verifyLeavesProof_recomputesLeaves [DecidableEq δ] :
    RecomputesLeaves H (verifyLeavesProof H) (proofTree H) Proof.Separates where
  verify_iff root bs p := by
    unfold verifyLeavesProof
    cases proofTree H bs p with
    | none => simp
    | some t => simp
  tree_map := proofTree_map H
  mem_leaves bs p t hsep ht b hb := mem_leaves_proofTree H hsep ht hb

/-- The proof of the second of two leaves is the hash of the first. -/
theorem verifyLeavesProof_second [DecidableEq δ] (b c : Bytes) :
    verifyLeavesProof H (mmrRoot H [b, c]) [c] ⟨[1], 2, [H.hash b]⟩ = true := by
  have hh : peakHeights 2 = [1] := by decide
  have ht : proofTree H [c] ⟨[1], 2, [H.hash b]⟩ = some (node (given (H.hash b)) (leaf c)) := by
    simp [proofTree, leafRow, hh, peakTrees, peakTree, parents, bagPeaks, bag, isLeaf]
  simp [verifyLeavesProof, ht, HashTree.root, mmrRoot_pair]

/-- Without leaves, the peak of a range proves the range. -/
theorem verifyLeavesProof_nil [DecidableEq δ] (root : δ) : verifyLeavesProof H root [] ⟨[], 1, [root]⟩ = true := by
  have hh : peakHeights 1 = [0] := by decide
  have ht : proofTree H [] ⟨[], 1, [root]⟩ = some (given root) := by
    simp [proofTree, leafRow, hh, peakTrees, bagPeaks, bag, isLeaf]
  simp [verifyLeavesProof, ht, HashTree.root]

/-- What is claimed to be the only leaf of a range is rejected. -/
theorem verifyLeavesProof_sole [DecidableEq δ] (root : δ) {bs : List Bytes} {p : Proof δ} (hcount : p.leafCount = 1)
    (hbs : bs.length = 1) : verifyLeavesProof H root bs p = false := by
  obtain ⟨is, n, items⟩ := p
  obtain ⟨b, rfl⟩ := List.length_eq_one_iff.1 hbs
  obtain rfl : n = 1 := hcount
  have hnone : proofTree H [b] ⟨is, 1, items⟩ = none := by
    unfold proofTree
    split
    · rfl
    · rename_i h
      push Not at h
      obtain ⟨i, rfl⟩ := List.length_eq_one_iff.1 h.1.symm
      have hh : peakHeights 1 = [0] := by decide
      have hi : i.toNat ≠ 0 := by
        intro hzero
        exact h.2 rfl (by rw [UInt64.toNat_inj.1 (hzero.trans UInt64.toNat_zero.symm)])
      -- the leaf lies behind the only peak and is left over
      cases items with
      | nil => simp [leafRow, hh, peakTrees, hi, bagPeaks]
      | cons d ds => simp [leafRow, hh, peakTrees, hi, bagPeaks]
  simp [verifyLeavesProof, hnone]

end Mmr
