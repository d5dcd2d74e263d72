import XcmpPrototype.MerkleTrees

/-!
# Proofs in a mountain range

The generator of the proofs that `Mmr.verifyLeavesProof` checks.  Each peak with leaves to prove contributes the
siblings that are not recomputed, row by row from the bottom; a peak without such leaves contributes its digest, and the
peaks to the right of the last leaf are bagged into one digest.  For every range of at least two leaves and all leaves
at distinct positions in it the result is accepted against the root of the range (`Mmr.verifyLeavesProof_items`).

The peaks of a range are the perfect trees over consecutive parts of its list, one for each binary digit of the length
(`Mmr.peaks_eq`).
-/

open Scale

namespace Mmr

open HashTree BinaryMerkle

variable {δ : Type} (H : Hashing δ)

/-! ### The parts of a list -/

/-- The perfect trees of the given heights over consecutive parts of a list, from left to right. -/
def parts : List ℕ → List Bytes → List (ℕ × HashTree δ)
  | [], _ => []
  | h :: hs, bs => (h, merkelize H h ((bs.take (2 ^ h)).map leaf)) :: parts hs (bs.drop (2 ^ h))

/-- The number of leaves below peaks of the given heights. -/
def leavesBelow (hs : List ℕ) : ℕ := (hs.map fun h => 2 ^ h).sum

private theorem mergeRow_append {l : List (HashTree δ)} (hl : l.length % 2 = 0) (r : List (HashTree δ)) :
    mergeRow (l ++ r) = mergeRow l ++ mergeRow r := by
  induction l using List.twoStepInduction with
  | nil => rfl
  | singleton t => simp at hl
  | cons_cons t u l ih =>
    have heven : l.length % 2 = 0 := by
      simp only [List.length_cons] at hl
      omega
    simp only [List.cons_append, mergeRow, ih heven]

private theorem merkelize_succ {ts : List (HashTree δ)} (h : 2 ≤ ts.length) (n : ℕ) :
    merkelize H (n + 1) ts = merkelize H n (mergeRow ts) := by
  rcases ts with _ | ⟨a, _ | ⟨b, ts⟩⟩
  · simp at h
  · simp at h
  · rw [merkelize] <;> simp

private theorem length_mergeRow_two_pow {ts : List (HashTree δ)} {h : ℕ} (hlen : ts.length = 2 ^ (h + 1)) :
    (mergeRow ts).length = 2 ^ h := by
  rw [length_mergeRow, hlen, Nat.pow_succ]
  omega

/-- Two perfect trees next to each other are the children of the next perfect tree. -/
private theorem merkelize_append {h : ℕ} {l r : List (HashTree δ)} (hl : l.length = 2 ^ h) (hr : r.length = 2 ^ h) :
    merkelize H (h + 1) (l ++ r) = node (merkelize H h l) (merkelize H h r) := by
  induction h generalizing l r with
  | zero =>
    obtain ⟨t, rfl⟩ := List.length_eq_one_iff.1 hl
    obtain ⟨u, rfl⟩ := List.length_eq_one_iff.1 hr
    rfl
  | succ h ih =>
    have hpos : 0 < 2 ^ h := Nat.two_pow_pos h
    have hpow : 2 ^ (h + 1) = 2 * 2 ^ h := Nat.pow_succ'
    rw [merkelize_succ H (by rw [List.length_append]; omega), mergeRow_append (by omega),
      ih (length_mergeRow_two_pow hl) (length_mergeRow_two_pow hr), merkelize_succ H (by omega),
      merkelize_succ H (by omega)]

private theorem pushPeak_of_lt {h : ℕ} {t : HashTree δ} {ps : List (ℕ × HashTree δ)} (hps : ∀ p ∈ ps, h < p.1) :
    pushPeak h t ps = (h, t) :: ps := by
  cases ps with
  | nil => rfl
  | cons p ps =>
    have hne : h ≠ p.1 := (hps p List.mem_cons_self).ne
    simp [pushPeak, hne]

/-- Adding the leaves of a perfect tree one by one adds the tree. -/
private theorem foldl_pushPeak {h : ℕ} {bs : List Bytes} {ps : List (ℕ × HashTree δ)} (hlen : bs.length = 2 ^ h)
    (hps : ∀ p ∈ ps, h ≤ p.1) :
    bs.foldl (fun ps b => pushPeak 0 (leaf b) ps) ps = pushPeak h (merkelize H h (bs.map leaf)) ps := by
  induction h generalizing bs ps with
  | zero =>
    obtain ⟨b, rfl⟩ := List.length_eq_one_iff.1 hlen
    rfl
  | succ h ih =>
    have hpow : 2 ^ (h + 1) = 2 * 2 ^ h := Nat.pow_succ'
    -- the left half makes a peak of its own, which merges with that of the right half
    obtain ⟨l, r, rfl, hl, hr⟩ : ∃ l r, bs = l ++ r ∧ l.length = 2 ^ h ∧ r.length = 2 ^ h :=
      ⟨bs.take (2 ^ h), bs.drop (2 ^ h), (List.take_append_drop _ _).symm, by simp; omega, by simp; omega⟩
    rw [List.foldl_append, ih hl fun p hp => (Nat.le_succ h).trans (hps p hp), pushPeak_of_lt fun p hp => hps p hp,
      ih hr]
    · rw [List.map_append, merkelize_append H (by simpa using hl) (by simpa using hr)]
      simp [pushPeak]
    · intro p hp
      rcases List.mem_cons.1 hp with rfl | hp
      · exact le_rfl
      · exact (Nat.le_succ h).trans (hps p hp)

private theorem foldl_pushPeak_parts {hs : List ℕ} {bs : List Bytes} {ps : List (ℕ × HashTree δ)}
    (hdesc : hs.Pairwise fun h k => k < h) (hlen : leavesBelow hs = bs.length) (hps : ∀ p ∈ ps, ∀ h ∈ hs, h < p.1) :
    bs.foldl (fun ps b => pushPeak 0 (leaf b) ps) ps = (parts H hs bs).reverse ++ ps := by
  induction hs generalizing bs ps with
  | nil =>
    obtain rfl : bs = [] := List.eq_nil_of_length_eq_zero hlen.symm
    rfl
  | cons h hs ih =>
    rw [List.pairwise_cons] at hdesc
    have hsum : 2 ^ h + leavesBelow hs = bs.length := by simpa [leavesBelow] using hlen
    have htake : (bs.take (2 ^ h)).length = 2 ^ h := by
      rw [List.length_take]
      omega
    have hlt : ∀ p ∈ ps, h < p.1 := fun p hp => hps p hp h List.mem_cons_self
    conv_lhs => rw [← List.take_append_drop (2 ^ h) bs]
    rw [List.foldl_append, foldl_pushPeak H htake fun p hp => (hlt p hp).le, pushPeak_of_lt hlt,
      ih hdesc.2 (by rw [List.length_drop]; omega)]
    · simp [parts]
    · intro p hp k hk
      rcases List.mem_cons.1 hp with rfl | hp
      · exact hdesc.1 k hk
      · exact hps p hp k (List.mem_cons_of_mem _ hk)

private theorem leavesBelow_filter_testBit (n k : ℕ) :
    leavesBelow ((List.range k).reverse.filter fun h => n.testBit h) = n % 2 ^ k := by
  induction k with
  | zero => simp [leavesBelow, Nat.mod_one]
  | succ k ih =>
    rw [List.range_succ, List.reverse_append, List.reverse_singleton, List.singleton_append, List.filter_cons,
      Nat.mod_pow_succ, ← ih, ← Nat.toNat_testBit]
    cases n.testBit k with
    | false => simp
    | true => simp [leavesBelow, Nat.add_comm]

theorem leavesBelow_peakHeights {n : ℕ} (h : n < 2 ^ 64) : leavesBelow (peakHeights n) = n := by
  rw [peakHeights, leavesBelow_filter_testBit, Nat.mod_eq_of_lt h]

private theorem peakHeights_pairwise (n : ℕ) : (peakHeights n).Pairwise fun h k => k < h :=
  (List.pairwise_reverse.2 List.pairwise_lt_range).filter _

/-- The peaks of a range are the perfect trees over the parts of its list. -/
theorem peaks_eq {bs : List Bytes} (h : bs.length < 2 ^ 64) :
    peaks bs = (parts H (peakHeights bs.length) bs).reverse := by
  rw [peaks, foldl_pushPeak_parts H (peakHeights_pairwise _) (leavesBelow_peakHeights h) (by simp), List.append_nil]

/-! ### The digests of a proof -/

/-- The parents of the positions `is` of a row, and the roots of the siblings that are not among them. -/
def rowItems (row : List (HashTree δ)) : List ℕ → List ℕ × List δ
  | [] => ([], [])
  | [i] => ([i / 2], ((sibling row i).map (root H)).toList)
  | i :: j :: is =>
    if i % 2 = 0 ∧ j = i + 1 then (i / 2 :: (rowItems row is).1, (rowItems row is).2)
    else (i / 2 :: (rowItems row (j :: is)).1, ((sibling row i).map (root H)).toList ++ (rowItems row (j :: is)).2)

/-- The siblings in the rows of a perfect tree of the given height. -/
def peakItems : ℕ → List (HashTree δ) → List ℕ → List δ
  | 0, _, _ => []
  | h + 1, row, is => (rowItems H row is).2 ++ peakItems h (mergeRow row) (rowItems H row is).1

/-- The digests of peaks with the given heights over `bs`, whose first leaf is at position `first`. -/
def partItems : List ℕ → ℕ → List Bytes → List ℕ → List δ
  | [], _, _, _ => []
  | h :: hs, first, bs, is =>
    if is = [] then [(bag H ((parts H (h :: hs) bs).map Prod.snd).reverse).root H]
    else
      let row := (bs.take (2 ^ h)).map leaf
      let mine := is.takeWhile fun i => i < first + 2 ^ h
      (if mine = [] then [(merkelize H h row).root H] else peakItems H h row (mine.map fun i => i - first)) ++
        partItems hs (first + 2 ^ h) (bs.drop (2 ^ h)) (is.dropWhile fun i => i < first + 2 ^ h)

/-- The digests that prove the leaves at the positions `is`, in any order, in the range of `bs`. -/
def items (bs : List Bytes) (is : List ℕ) : List δ :=
  partItems H (peakHeights bs.length) 0 bs ((is.insertionSort fun i j => i ≤ j).destutter fun i j => i ≠ j)

/-! ### The check recomputes the root -/

/-- Nodes in the order of their positions, with the same digests as the nodes of a row that starts at `first`. -/
structure OpensRow (first : ℕ) (row : List (HashTree δ)) (nodes : List (ℕ × HashTree δ)) : Prop where
  sorted : nodes.Pairwise fun p q => p.1 < q.1
  le : ∀ p ∈ nodes, first ≤ p.1
  root_eq : ∀ p ∈ nodes, ∃ t, row[p.1 - first]? = some t ∧ p.2.root H = t.root H

variable {H}

private theorem OpensRow.tail {first : ℕ} {row : List (HashTree δ)} {p : ℕ × HashTree δ}
    {nodes : List (ℕ × HashTree δ)} (h : OpensRow H first row (p :: nodes)) : OpensRow H first row nodes :=
  ⟨h.sorted.of_cons, fun q hq => h.le q (List.mem_cons_of_mem _ hq),
    fun q hq => h.root_eq q (List.mem_cons_of_mem _ hq)⟩

private theorem OpensRow.cons {row : List (HashTree δ)} {p : ℕ × HashTree δ} {nodes : List (ℕ × HashTree δ)}
    (h : OpensRow H 0 row nodes) (hlt : ∀ q ∈ nodes, p.1 < q.1) {t : HashTree δ} (ht : row[p.1]? = some t)
    (hroot : p.2.root H = t.root H) : OpensRow H 0 row (p :: nodes) where
  sorted := List.pairwise_cons.2 ⟨hlt, h.sorted⟩
  le _ _ := Nat.zero_le _
  root_eq := List.forall_mem_cons.2 ⟨⟨t, ht, hroot⟩, h.root_eq⟩

/-- Two nodes of a row next to each other, the left one at an even position, have one parent. -/
private theorem getElem?_mergeRow_pair {row : List (HashTree δ)} {i : ℕ} {t u : HashTree δ} (hi : i % 2 = 0)
    (ht : row[i]? = some t) (hu : row[i + 1]? = some u) : (mergeRow row)[i / 2]? = some (node t u) := by
  rw [getElem?_mergeRow, show 2 * (i / 2) = i by omega, ht, hu]

/-- A node of a row of even length has a sibling, and the digest of its parent is that of the two. -/
private theorem exists_sibling {row : List (HashTree δ)} (heven : row.length % 2 = 0) {i : ℕ} {t t' : HashTree δ}
    (ht : row[i]? = some t) (hroot : t'.root H = t.root H) :
    ∃ s u, sibling row i = some s ∧ (mergeRow row)[i / 2]? = some u ∧
      (if i % 2 = 1 then node (given (s.root H)) t' else node t' (given (s.root H))).root H = u.root H := by
  have hi : i < row.length := (List.getElem?_eq_some_iff.1 ht).1
  by_cases hodd : i % 2 = 1
  · obtain ⟨s, hs⟩ : ∃ s, row[i - 1]? = some s := ⟨row[i - 1], List.getElem?_eq_getElem (by omega)⟩
    have hpair := getElem?_mergeRow_pair (i := i - 1) (by omega) hs (by rwa [show i - 1 + 1 = i by omega])
    rw [show (i - 1) / 2 = i / 2 by omega] at hpair
    exact ⟨s, node s t, by simp [sibling, hodd, hs], hpair, by simp [hodd, HashTree.root, hroot]⟩
  · obtain ⟨s, hs⟩ : ∃ s, row[i + 1]? = some s := ⟨row[i + 1], List.getElem?_eq_getElem (by omega)⟩
    exact ⟨s, node t s, by simp [sibling, hodd, hs], getElem?_mergeRow_pair (by omega) ht hs,
      by simp [hodd, HashTree.root, hroot]⟩

/-- The nodes `nodes'` of the next row are hashed, and are above the nodes `nodes`. -/
structure RaisedFrom (H : Hashing δ) (row : List (HashTree δ)) (nodes nodes' : List (ℕ × HashTree δ)) : Prop where
  opens : OpensRow H 0 (mergeRow row) nodes'
  above : ∀ q ∈ nodes', ∃ p ∈ nodes, q.1 = p.1 / 2
  hashed : ∀ q ∈ nodes', q.2.isLeaf = false

private theorem RaisedFrom.nil (row : List (HashTree δ)) : RaisedFrom H row [] [] :=
  ⟨⟨.nil, by simp, by simp⟩, by simp, by simp⟩

private theorem RaisedFrom.cons {row : List (HashTree δ)} {nodes rest nodes' : List (ℕ × HashTree δ)}
    (h : RaisedFrom H row rest nodes') (hrest : rest ⊆ nodes) {p : ℕ × HashTree δ} (hp : p ∈ nodes)
    (hlt : ∀ q ∈ rest, p.1 / 2 < q.1 / 2) {t u : HashTree δ} (ht : (mergeRow row)[p.1 / 2]? = some t)
    (hroot : u.root H = t.root H) (hu : u.isLeaf = false) : RaisedFrom H row nodes ((p.1 / 2, u) :: nodes') where
  opens := by
    refine h.opens.cons (fun q hq => ?_) ht hroot
    obtain ⟨r, hr, hqr⟩ := h.above q hq
    rw [hqr]
    exact hlt r hr
  above := by
    refine List.forall_mem_cons.2 ⟨⟨p, hp, rfl⟩, fun q hq => ?_⟩
    obtain ⟨r, hr, hqr⟩ := h.above q hq
    exact ⟨r, hrest hr, hqr⟩
  hashed := List.forall_mem_cons.2 ⟨hu, h.hashed⟩

/-- The parents of nodes of a row are nodes of the next row. -/
private theorem parents_rowItems {row : List (HashTree δ)} (heven : row.length % 2 = 0)
    {nodes : List (ℕ × HashTree δ)} (hn : OpensRow H 0 row nodes) (ds : List δ) :
    ∃ nodes', parents nodes ((rowItems H row (nodes.map Prod.fst)).2 ++ ds) = some (nodes', ds) ∧
      nodes'.map Prod.fst = (rowItems H row (nodes.map Prod.fst)).1 ∧ RaisedFrom H row nodes nodes' ∧
      (nodes ≠ [] → nodes' ≠ []) := by
  induction nodes using List.twoStepInduction with
  | nil => exact ⟨[], rfl, rfl, .nil row, id⟩
  | singleton p =>
    obtain ⟨i, t'⟩ := p
    obtain ⟨t, ht, hroot⟩ : ∃ t, row[i]? = some t ∧ t'.root H = t.root H := hn.root_eq _ List.mem_cons_self
    obtain ⟨s, u, hs, hu, hparent⟩ := exists_sibling heven ht hroot
    refine ⟨_, by simp only [List.map_cons, List.map_nil, rowItems, hs]; rfl, rfl,
      (RaisedFrom.nil row).cons (List.nil_subset _) List.mem_cons_self (by simp) hu hparent ?_, fun _ => List.cons_ne_nil _ _⟩
    split <;> rfl
  | cons_cons p q nodes ih ih' =>
    obtain ⟨i, t'⟩ := p
    obtain ⟨j, u'⟩ := q
    have hij : i < j := (List.pairwise_cons.1 hn.sorted).1 _ List.mem_cons_self
    have hj : ∀ r ∈ nodes, j < r.1 := (List.pairwise_cons.1 hn.tail.sorted).1
    obtain ⟨t, ht, hroot⟩ : ∃ t, row[i]? = some t ∧ t'.root H = t.root H := hn.root_eq _ List.mem_cons_self
    by_cases hpair : i % 2 = 0 ∧ j = i + 1
    · -- the two nodes are children of one parent, and no digest is used
      obtain ⟨hi, rfl⟩ := hpair
      obtain ⟨u, hu, hroot'⟩ : ∃ u, row[i + 1]? = some u ∧ u'.root H = u.root H :=
        hn.tail.root_eq _ List.mem_cons_self
      obtain ⟨nodes', hparents, hfst, hraised, -⟩ := ih hn.tail.tail
      have hcond : i % 2 = 0 ∧ i + 1 = i + 1 := ⟨hi, rfl⟩
      refine ⟨(i / 2, node t' u') :: nodes', ?_, ?_, ?_, fun _ => List.cons_ne_nil _ _⟩
      · simp only [List.map_cons, rowItems, parents, hcond, and_self, ↓reduceIte, hparents, Option.map_some]
      · simp only [List.map_cons, rowItems, hcond, and_self, ↓reduceIte, hfst]
      · refine hraised.cons (List.subset_cons_of_subset _ (List.subset_cons_self _ _)) List.mem_cons_self
          (fun r hr => ?_) (getElem?_mergeRow_pair hi ht hu) ?_ rfl
        · have := hj r hr
          omega
        · simp only [HashTree.root, hroot, hroot']
    · -- the sibling is not among the nodes, and its digest comes next
      obtain ⟨s, u, hs, hu, hparent⟩ := exists_sibling heven ht hroot
      obtain ⟨nodes', hparents, hfst, hraised, -⟩ := ih' (j, u') hn.tail
      refine ⟨(i / 2, if i % 2 = 1 then node (given (s.root H)) t' else node t' (given (s.root H))) :: nodes', ?_, ?_,
        ?_, fun _ => List.cons_ne_nil _ _⟩
      · rw [List.map_cons] at hparents
        simp only [List.map_cons, rowItems, parents, hpair, ↓reduceIte, hs, Option.map_some, Option.toList_some,
          List.cons_append, List.nil_append, hparents]
      · rw [List.map_cons] at hfst
        simp only [List.map_cons, rowItems, hpair, ↓reduceIte, hfst]
      · refine hraised.cons (List.subset_cons_self _ _) List.mem_cons_self (fun r hr => ?_) hu hparent ?_
        · rcases List.mem_cons.1 hr with rfl | hr
          · simp only
            omega
          · have := hj r hr
            simp only
            omega
        · split <;> rfl

/-- The check of one peak recomputes its digest, and only a single leaf stays a leaf. -/
private theorem peakTree_peakItems {h : ℕ} {row : List (HashTree δ)} (hlen : row.length = 2 ^ h)
    {nodes : List (ℕ × HashTree δ)} (hn : OpensRow H 0 row nodes) (hne : nodes ≠ []) (ds : List δ) :
    ∃ t, peakTree h nodes (peakItems H h row (nodes.map Prod.fst) ++ ds) = some (t, ds) ∧
      t.root H = (merkelize H h row).root H ∧ ((∀ p ∈ nodes, p.2.isLeaf = false) ∨ h ≠ 0 → t.isLeaf = false) := by
  induction h generalizing row nodes with
  | zero =>
    obtain ⟨t, rfl⟩ := List.length_eq_one_iff.1 hlen
    have hzero : ∀ p ∈ nodes, p.1 = 0 := by
      intro p hp
      obtain ⟨u, hu, -⟩ := hn.root_eq p hp
      have := (List.getElem?_eq_some_iff.1 hu).1
      simp only [List.length_singleton] at this
      omega
    rcases nodes with _ | ⟨p, _ | ⟨q, nodes⟩⟩
    · exact absurd rfl hne
    · obtain ⟨u, hu, hroot⟩ := hn.root_eq p List.mem_cons_self
      have hp := hzero p List.mem_cons_self
      rw [hp] at hu
      cases hu
      refine ⟨p.2, rfl, hroot, ?_⟩
      rintro (hleaf | h0)
      · exact hleaf p List.mem_cons_self
      · exact absurd rfl h0
    · have hlt := (List.pairwise_cons.1 hn.sorted).1 q List.mem_cons_self
      rw [hzero p (by simp), hzero q (by simp)] at hlt
      exact absurd hlt (lt_irrefl 0)
  | succ h ih =>
    have hpos : 0 < 2 ^ h := Nat.two_pow_pos h
    have hpow : 2 ^ (h + 1) = 2 * 2 ^ h := Nat.pow_succ'
    obtain ⟨nodes', hparents, hfst, hraised, hne'⟩ := parents_rowItems (by omega) hn
      (peakItems H h (mergeRow row) (rowItems H row (nodes.map Prod.fst)).1 ++ ds)
    obtain ⟨t, ht, hroot, hleaf⟩ := ih (length_mergeRow_two_pow hlen) hraised.opens (hne' hne)
    refine ⟨t, ?_, ?_, fun _ => hleaf (.inl hraised.hashed)⟩
    · rw [hfst] at ht
      simp only [peakTree, peakItems, List.append_assoc, hparents, Option.bind_some, ht]
    · rw [merkelize_succ H (by omega), hroot]

theorem bag_reverse_cons (H : Hashing δ) (t : HashTree δ) (ts : List (HashTree δ)) :
    bag H (t :: ts).reverse = if ts = [] then t else node (bag H ts.reverse) t := by
  cases hts : ts.reverse with
  | nil =>
    rw [List.reverse_eq_nil_iff] at hts
    simp [hts, bag]
  | cons u us =>
    have hne : ts ≠ [] := by
      rintro rfl
      cases hts
    simp [hne, hts, bag]

private theorem peakTrees_nil (hs : List ℕ) (first : ℕ) :
    peakTrees hs first ([] : List (ℕ × HashTree δ)) ([] : List δ) = some ([], [], []) := by
  cases hs <;> rfl

private theorem le_of_mem_dropWhile {k : ℕ} {nodes : List (ℕ × HashTree δ)}
    (hsorted : nodes.Pairwise fun p q => p.1 < q.1) {p : ℕ × HashTree δ}
    (hp : p ∈ nodes.dropWhile fun p => decide (p.1 < k)) : k ≤ p.1 := by
  induction nodes with
  | nil => cases hp
  | cons q nodes ih =>
    rw [List.pairwise_cons] at hsorted
    rw [List.dropWhile_cons] at hp
    split at hp
    · exact ih hsorted.2 hp
    · rename_i hq
      have hle : k ≤ q.1 := by simpa using hq
      rcases List.mem_cons.1 hp with rfl | hp
      · exact hle
      · exact hle.trans (hsorted.1 p hp).le

section Parts

variable {h first : ℕ} {bs : List Bytes} {nodes : List (ℕ × HashTree δ)}

/-- The nodes below the first peak, with their positions in it. -/
private theorem OpensRow.takeWhile (hn : OpensRow H first (bs.map leaf) nodes) :
    OpensRow H 0 ((bs.take (2 ^ h)).map leaf)
      ((nodes.takeWhile fun p => decide (p.1 < first + 2 ^ h)).map fun p => (p.1 - first, p.2)) where
  sorted := by
    rw [List.pairwise_map]
    refine (hn.sorted.sublist (List.takeWhile_sublist _)).imp_of_mem fun hp hq hlt => ?_
    have := hn.le _ ((List.takeWhile_sublist _).subset hp)
    simp only
    omega
  le _ _ := Nat.zero_le _
  root_eq := by
    intro q hq
    obtain ⟨p, hp, rfl⟩ := List.mem_map.1 hq
    have hle := hn.le p ((List.takeWhile_sublist _).subset hp)
    have hlt : p.1 < first + 2 ^ h := by simpa using List.mem_takeWhile_imp hp
    obtain ⟨t, ht, hroot⟩ := hn.root_eq p ((List.takeWhile_sublist _).subset hp)
    refine ⟨t, ?_, hroot⟩
    rw [List.map_take, Nat.sub_zero, List.getElem?_take_of_lt (by omega)]
    exact ht

/-- The nodes to the right of the first peak. -/
private theorem OpensRow.dropWhile (hn : OpensRow H first (bs.map leaf) nodes) :
    OpensRow H (first + 2 ^ h) ((bs.drop (2 ^ h)).map leaf)
      (nodes.dropWhile fun p => decide (p.1 < first + 2 ^ h)) where
  sorted := hn.sorted.sublist (List.dropWhile_sublist _)
  le _ hp := le_of_mem_dropWhile hn.sorted hp
  root_eq := by
    intro p hp
    have hle : first + 2 ^ h ≤ p.1 := le_of_mem_dropWhile hn.sorted hp
    have hpos : 0 < 2 ^ h := Nat.two_pow_pos h
    obtain ⟨t, ht, hroot⟩ := hn.root_eq p ((List.dropWhile_sublist _).subset hp)
    refine ⟨t, ?_, hroot⟩
    rw [List.map_drop, List.getElem?_drop, show 2 ^ h + (p.1 - (first + 2 ^ h)) = p.1 - first by omega]
    exact ht

/-- The check of the first peak recomputes its digest. -/
private theorem peakTrees_head (hlen : 2 ^ h ≤ bs.length) (hn : OpensRow H first (bs.map leaf) nodes)
    (hne : nodes ≠ []) (hs : List ℕ) :
    ∃ t : HashTree δ, t.root H = (merkelize H h ((bs.take (2 ^ h)).map leaf)).root H ∧ (h ≠ 0 → t.isLeaf = false) ∧
      peakTrees (h :: hs) first nodes (partItems H (h :: hs) first bs (nodes.map Prod.fst)) =
        (peakTrees hs (first + 2 ^ h) (nodes.dropWhile fun p => decide (p.1 < first + 2 ^ h))
          (partItems H hs (first + 2 ^ h) (bs.drop (2 ^ h))
            ((nodes.dropWhile fun p => decide (p.1 < first + 2 ^ h)).map Prod.fst))).map fun r => (t :: r.1, r.2) := by
  have hfst : nodes.map Prod.fst ≠ [] := by simpa using hne
  have htake : (nodes.map Prod.fst).takeWhile (fun i => decide (i < first + 2 ^ h)) =
      (nodes.takeWhile fun p => decide (p.1 < first + 2 ^ h)).map Prod.fst := List.takeWhile_map
  have hdrop : (nodes.map Prod.fst).dropWhile (fun i => decide (i < first + 2 ^ h)) =
      (nodes.dropWhile fun p => decide (p.1 < first + 2 ^ h)).map Prod.fst := List.dropWhile_map
  have hopens : OpensRow H 0 ((bs.take (2 ^ h)).map leaf) _ := hn.takeWhile (h := h)
  simp only [partItems, hfst, ↓reduceIte, htake, hdrop, peakTrees]
  generalize nodes.takeWhile (fun p => decide (p.1 < first + 2 ^ h)) = mine at hopens ⊢
  generalize nodes.dropWhile (fun p => decide (p.1 < first + 2 ^ h)) = rest
  cases mine with
  | nil => exact ⟨given _, rfl, fun _ => rfl, rfl⟩
  | cons p mine =>
    have htwo : ((bs.take (2 ^ h)).map leaf : List (HashTree δ)).length = 2 ^ h := by
      rw [List.length_map, List.length_take]
      omega
    obtain ⟨t, ht, hroot, hleaf⟩ := peakTree_peakItems htwo hopens (by simp)
      (partItems H hs (first + 2 ^ h) (bs.drop (2 ^ h)) (rest.map Prod.fst))
    rw [List.map_map] at ht
    refine ⟨t, hroot, fun h0 => hleaf (.inr h0), ?_⟩
    simp only [List.map_cons, reduceCtorEq, ↓reduceIte, List.map_map]
    exact congrArg (fun q => q.bind fun q => (peakTrees hs (first + 2 ^ h) rest q.2).map fun r => (q.1 :: r.1, r.2)) ht

end Parts

/-- The check of all peaks recomputes the digests from which the root is bagged. -/
private theorem peakTrees_partItems {hs : List ℕ} {first : ℕ} {bs : List Bytes} {nodes : List (ℕ × HashTree δ)}
    (hlen : leavesBelow hs = bs.length) (hn : OpensRow H first (bs.map leaf) nodes) :
    ∃ ts : List (HashTree δ), peakTrees hs first nodes (partItems H hs first bs (nodes.map Prod.fst)) =
        some (ts, [], []) ∧ (ts = [] ↔ hs = []) ∧
      (bag H ts.reverse).root H = (bag H ((parts H hs bs).map Prod.snd).reverse).root H ∧
      (hs ≠ [0] → (bag H ts.reverse).isLeaf = false) := by
  induction hs generalizing first bs nodes with
  | nil =>
    obtain rfl : bs = [] := List.eq_nil_of_length_eq_zero hlen.symm
    obtain rfl : nodes = [] := by
      rw [List.eq_nil_iff_forall_not_mem]
      intro p hp
      obtain ⟨t, ht, -⟩ := hn.root_eq p hp
      cases ht
    exact ⟨[], rfl, by simp, rfl, fun _ => rfl⟩
  | cons h hs ih =>
    have hsum : 2 ^ h + leavesBelow hs = bs.length := by simpa [leavesBelow] using hlen
    by_cases hne : nodes = []
    · -- nothing is left to prove, and one digest stands for all peaks from here on
      subst hne
      refine ⟨[given (bag H ((parts H (h :: hs) bs).map Prod.snd).reverse |>.root H)], ?_, by simp, rfl, fun _ => rfl⟩
      simp only [List.map_nil, partItems, ↓reduceIte, peakTrees, List.takeWhile_nil, List.dropWhile_nil, peakTrees_nil,
        Option.map_some]
    · obtain ⟨t, hroot, hleaf, hhead⟩ := peakTrees_head (h := h) (by omega) hn hne hs
      obtain ⟨ts, hts, hnil, hbag, -⟩ := ih (by rw [List.length_drop]; omega) (hn.dropWhile (h := h))
      have hparts : (parts H hs (bs.drop (2 ^ h))).map Prod.snd = [] ↔ hs = [] := by
        cases hs <;> simp [parts]
      refine ⟨t :: ts, by rw [hhead, hts]; rfl, by simp, ?_, fun h0 => ?_⟩
      · rw [parts, List.map_cons, bag_reverse_cons, bag_reverse_cons]
        by_cases hhs : hs = []
        · simp only [hnil.2 hhs, hparts.2 hhs, ↓reduceIte, hroot]
        · simp only [hnil.not.2 hhs, hparts.not.2 hhs, ↓reduceIte, HashTree.root, hroot, hbag]
      · rw [bag_reverse_cons]
        by_cases hhs : hs = []
        · simp only [hnil.2 hhs, ↓reduceIte]
          exact hleaf fun hz => h0 (by rw [hz, hhs])
        · simp only [hnil.not.2 hhs, ↓reduceIte]
          rfl

/-- The nodes that the check starts from, for distinct positions and the leaves at them. -/
private theorem opensRow_leafRow {bs : List Bytes} {is : List UInt64} {ls : List Bytes} (hnodup : is.Nodup)
    (hls : List.Forall₂ (fun i b => bs[i.toNat]? = some b) is ls) :
    OpensRow H 0 (bs.map leaf) ((leafRow is ls).map fun x => (x.1.toNat, leaf x.2)) ∧
      ((leafRow is ls).map fun x => (x.1.toNat, (leaf x.2 : HashTree δ))).map Prod.fst =
        ((is.map UInt64.toNat).insertionSort fun i j => i ≤ j).destutter fun i j => i ≠ j := by
  obtain ⟨hlen, hmem⟩ := List.forall₂_iff_zip.1 hls
  rw [leafRow_of_nodup hlen.symm hnodup]
  have hfst : (((is.zip ls).insertionSort fun x y => x.1 ≤ y.1).map
      fun x => (x.1.toNat, (leaf x.2 : HashTree δ))).map Prod.fst =
        (is.map UInt64.toNat).insertionSort fun i j => i ≤ j := by
    have hmap : (is.zip ls).map (fun x => x.1.toNat) = is.map UInt64.toNat := by
      conv_rhs => rw [← List.map_fst_zip hlen.le, List.map_map]
      rfl
    rw [← hmap, ← List.map_insertionSort (fun x y : UInt64 × Bytes => x.1 ≤ y.1) (fun i j : ℕ => i ≤ j)
      (fun x => x.1.toNat) _ fun _ _ _ _ => Iff.rfl, List.map_map]
    rfl
  have hsorted : ((is.map UInt64.toNat).insertionSort fun i j => i ≤ j).Pairwise fun i j => i < j := by
    have hnat : ((is.map UInt64.toNat).insertionSort fun i j => i ≤ j).Nodup :=
      (List.perm_insertionSort _ _).nodup_iff.2 (hnodup.map fun _ _ => UInt64.toNat_inj.1)
    exact (List.pairwise_insertionSort (fun i j : ℕ => i ≤ j) _).imp₂ (fun _ _ hle hne => lt_of_le_of_ne hle hne) hnat
  refine ⟨⟨?_, fun _ _ => Nat.zero_le _, ?_⟩, ?_⟩
  · rw [← hfst, List.pairwise_map] at hsorted
    exact hsorted
  · intro p hp
    obtain ⟨x, hx, rfl⟩ := List.mem_map.1 hp
    have hleaf := hmem ((List.mem_insertionSort _).1 hx)
    exact ⟨leaf x.2, by simp [hleaf], rfl⟩
  · rw [hfst, List.destutter_of_isChain]
    exact (hsorted.imp fun h => h.ne).isChain

/-- The generated proof of leaves at distinct positions of a range with at least two leaves is accepted. -/
theorem verifyLeavesProof_items [DecidableEq δ] {bs : List Bytes} (htwo : 2 ≤ bs.length) (hlen : bs.length < 2 ^ 64)
    {is : List UInt64} {ls : List Bytes} (hnodup : is.Nodup)
    (hls : List.Forall₂ (fun i b => bs[i.toNat]? = some b) is ls) :
    verifyLeavesProof H (mmrRoot H bs) ls ⟨is, UInt64.ofNat bs.length, items H bs (is.map UInt64.toNat)⟩ = true := by
  have hcount : (UInt64.ofNat bs.length).toNat = bs.length := UInt64.toNat_ofNat_of_lt' hlen
  have hne : UInt64.ofNat bs.length ≠ 1 := by
    intro h
    rw [h] at hcount
    have := UInt64.toNat_one
    omega
  obtain ⟨hopens, hfst⟩ := opensRow_leafRow (H := H) hnodup hls
  obtain ⟨ts, hts, hnil, hroot, hleaf⟩ := peakTrees_partItems (leavesBelow_peakHeights hlen) hopens
  have hsum : leavesBelow (peakHeights bs.length) = bs.length := leavesBelow_peakHeights hlen
  have hsole : peakHeights bs.length ≠ [0] := by
    intro h
    rw [h] at hsum
    simp only [leavesBelow, List.map_cons, List.map_nil, List.sum_cons, List.sum_nil] at hsum
    omega
  have hts' : ts ≠ [] := by
    rw [ne_eq, hnil]
    intro h
    rw [h] at hsum
    simp only [leavesBelow, List.map_nil, List.sum_nil] at hsum
    omega
  have htree : proofTree H ls ⟨is, UInt64.ofNat bs.length, items H bs (is.map UInt64.toNat)⟩ =
      some (bag H ts.reverse) := by
    have hbag : bagPeaks H (ts, [], []) = some (bag H ts.reverse) := by
      cases ts with
      | nil => exact absurd rfl hts'
      | cons t ts => rfl
    rw [hfst] at hts
    simp [proofTree, hls.length_eq, hne, hcount, items, hts, hbag, hleaf hsole]
  simp only [verifyLeavesProof, htree, hroot, mmrRoot, tree, peaks_eq H hlen, List.map_reverse, decide_true]

end Mmr
