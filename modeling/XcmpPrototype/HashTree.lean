import XcmpPrototype.Scale

/-!
# Hash trees

A tree whose leaves are byte strings and whose inner nodes hash the concatenation of the digests of their children.
A proof is a tree too: subtrees the prover does not open are given by their digest only.  The main result compares
two trees with the same root when no two of the strings hashed in them collide: a leaf of the second is a leaf of the
first, or the preimage of an inner node of the first, or it lies below a leaf of the first that is as long as two
digests (`HashTree.mem_leaves_or`).  Nothing is assumed about the shapes of the trees, so when no leaf has the length
of an inner node the leaves of the second are leaves of the first (`HashTree.mem_leaves_of_root_eq`).
-/

open Scale

/-- A hash function with the fixed-width form of its digests, and the digest that stands for an empty tree. -/
structure Hashing (δ : Type) where
  hash : Bytes → δ
  toBytes : δ → Bytes
  width : ℕ
  empty : δ
  length_toBytes : ∀ d, (toBytes d).length = width
  toBytes_injective : Function.Injective toBytes

namespace Hashing

variable {δ : Type} (H : Hashing δ)

/-- The string hashed at an inner node. -/
def pair (d e : δ) : Bytes := H.toBytes d ++ H.toBytes e

@[simp] theorem length_pair (d e : δ) : (H.pair d e).length = 2 * H.width := by
  simp [pair, H.length_toBytes]
  omega

theorem pair_inj {d e d' e' : δ} (h : H.pair d e = H.pair d' e') : d = d' ∧ e = e' := by
  obtain ⟨h1, h2⟩ := List.append_inj h (by rw [H.length_toBytes, H.length_toBytes])
  exact ⟨H.toBytes_injective h1, H.toBytes_injective h2⟩

/-- No two distinct strings of `S` have the same hash. -/
def CollisionFree (S : List Bytes) : Prop := ∀ x ∈ S, ∀ y ∈ S, H.hash x = H.hash y → x = y

theorem CollisionFree.mono {H : Hashing δ} {S S' T T' : List Bytes} (h : H.CollisionFree (T ++ T')) (hS : S ⊆ T)
    (hS' : S' ⊆ T') : H.CollisionFree (S ++ S') := by
  have hsub : S ++ S' ⊆ T ++ T' := List.append_subset.2
    ⟨List.subset_append_of_subset_left _ hS, List.subset_append_of_subset_right _ hS'⟩
  exact fun x hx y hy => h x (hsub hx) y (hsub hy)

/-- Distinct hashes of the distinct entries of a list exclude collisions among them. -/
theorem collisionFree_of_nodup {S : List Bytes} (h : (S.dedup.map H.hash).Nodup) : H.CollisionFree S :=
  fun _ hx _ hy => List.inj_on_of_nodup_map h (List.mem_dedup.2 hx) (List.mem_dedup.2 hy)

end Hashing

/-- A tree of hashes, some of whose subtrees are only given by their digest. -/
inductive HashTree (δ : Type) where
  | leaf (b : Bytes)
  | given (d : δ)
  | node (l r : HashTree δ)
  deriving DecidableEq

namespace HashTree

variable {δ : Type} (H : Hashing δ)

def root : HashTree δ → δ
  | leaf b => H.hash b
  | given d => d
  | node l r => H.hash (H.pair (root l) (root r))

def leaves : HashTree δ → List Bytes
  | leaf b => [b]
  | given _ => []
  | node l r => leaves l ++ leaves r

/-- The digests that stand for unopened subtrees. -/
def givens : HashTree δ → List δ
  | leaf _ => []
  | given d => [d]
  | node l r => givens l ++ givens r

/-- The strings hashed at the inner nodes. -/
def inner : HashTree δ → List Bytes
  | leaf _ => []
  | given _ => []
  | node l r => H.pair (root H l) (root H r) :: (inner l ++ inner r)

/-- The tree is a bare leaf, in which nothing is hashed but the leaf itself. -/
def isLeaf : HashTree δ → Bool
  | leaf _ => true
  | _ => false

/-- All strings hashed to compute the root. -/
def hashed (t : HashTree δ) : List Bytes := t.leaves ++ t.inner H

variable {H}

theorem leaf_mem_hashed {t : HashTree δ} {b : Bytes} (h : b ∈ t.leaves) : b ∈ t.hashed H :=
  List.mem_append_left _ h

theorem inner_mem_hashed {t : HashTree δ} {b : Bytes} (h : b ∈ t.inner H) : b ∈ t.hashed H :=
  List.mem_append_right _ h

theorem pair_mem_hashed (l r : HashTree δ) : H.pair (l.root H) (r.root H) ∈ (node l r).hashed H :=
  inner_mem_hashed (by simp [inner])

theorem hashed_left_subset (l r : HashTree δ) : l.hashed H ⊆ (node l r).hashed H := by
  intro x hx
  simp only [hashed, leaves, inner, List.mem_append, List.mem_cons] at hx ⊢
  tauto

theorem hashed_right_subset (l r : HashTree δ) : r.hashed H ⊆ (node l r).hashed H := by
  intro x hx
  simp only [hashed, leaves, inner, List.mem_append, List.mem_cons] at hx ⊢
  tauto

theorem length_of_mem_inner {t : HashTree δ} {b : Bytes} (h : b ∈ t.inner H) : b.length = 2 * H.width := by
  induction t with
  | leaf _ => cases h
  | given _ => cases h
  | node l r ihl ihr =>
    simp only [inner, List.mem_cons, List.mem_append] at h
    rcases h with rfl | h | h
    · exact H.length_pair _ _
    · exact ihl h
    · exact ihr h

private theorem mem_or_mono {s t : HashTree δ} (hleaves : s.leaves ⊆ t.leaves) (hinner : s.inner H ⊆ t.inner H)
    {b : Bytes} (h : b ∈ s.leaves ∨ b ∈ s.inner H ∨ ∃ c ∈ s.leaves, c.length = 2 * H.width) :
    b ∈ t.leaves ∨ b ∈ t.inner H ∨ ∃ c ∈ t.leaves, c.length = 2 * H.width := by
  rcases h with h | h | ⟨c, hc, hlen⟩
  · exact Or.inl (hleaves h)
  · exact Or.inr (Or.inl (hinner h))
  · exact Or.inr (Or.inr ⟨c, hleaves hc, hlen⟩)

/-- Where a leaf of a proof can lie in the tree it is checked against.  The digests that the tree itself leaves open
(the root of an empty tree) must not be hashes of strings of the proof. -/
theorem mem_leaves_or {t t' : HashTree δ} (hroot : t'.root H = t.root H)
    (hcf : H.CollisionFree (t.hashed H ++ t'.hashed H))
    (hgiven : ∀ d ∈ t.givens, ∀ x ∈ t'.hashed H, H.hash x ≠ d) {b : Bytes} (hb : b ∈ t'.leaves) :
    b ∈ t.leaves ∨ b ∈ t.inner H ∨ ∃ c ∈ t.leaves, c.length = 2 * H.width := by
  -- both trees are descended together: equal hashes at a pair of nodes mean equal preimages there
  induction t' generalizing t with
  | given d => cases hb
  | leaf b' =>
    obtain rfl : b = b' := by simpa [leaves] using hb
    have hb' : b ∈ (leaf b : HashTree δ).hashed H := leaf_mem_hashed hb
    cases t with
    | leaf c =>
      left
      have : b = c := hcf b (List.mem_append_right _ hb') c
        (List.mem_append_left _ (leaf_mem_hashed (by simp [leaves]))) hroot
      simp [leaves, this]
    | given d => exact absurd hroot (hgiven d (by simp [givens]) b hb')
    | node l r =>
      right; left
      have : b = H.pair (l.root H) (r.root H) := hcf b (List.mem_append_right _ hb') _
        (List.mem_append_left _ (pair_mem_hashed l r)) hroot
      simp [inner, this]
  | node l' r' ihl ihr =>
    have hp := pair_mem_hashed (H := H) l' r'
    cases t with
    | leaf c =>
      right; right
      have : H.pair (l'.root H) (r'.root H) = c := hcf _ (List.mem_append_right _ hp) c
        (List.mem_append_left _ (leaf_mem_hashed (by simp [leaves]))) hroot
      exact ⟨c, by simp [leaves], by rw [← this, H.length_pair]⟩
    | given d => exact absurd hroot (hgiven d (by simp [givens]) _ hp)
    | node l r =>
      have heq : H.pair (l'.root H) (r'.root H) = H.pair (l.root H) (r.root H) :=
        hcf _ (List.mem_append_right _ hp) _ (List.mem_append_left _ (pair_mem_hashed l r)) hroot
      obtain ⟨hl, hr⟩ := H.pair_inj heq
      have hcase : b ∈ l'.leaves ∨ b ∈ r'.leaves := by simpa [leaves] using hb
      rcases hcase with hb | hb
      · have h := ihl hl (hcf.mono (hashed_left_subset l r) (hashed_left_subset l' r'))
          (fun d hd x hx => hgiven d (by simp [givens, hd]) x (hashed_left_subset l' r' hx)) hb
        exact mem_or_mono (List.subset_append_left _ _)
          (List.subset_cons_of_subset _ (List.subset_append_left _ _)) h
      · have h := ihr hr (hcf.mono (hashed_right_subset l r) (hashed_right_subset l' r'))
          (fun d hd x hx => hgiven d (by simp [givens, hd]) x (hashed_right_subset l' r' hx)) hb
        exact mem_or_mono (List.subset_append_right _ _)
          (List.subset_cons_of_subset _ (List.subset_append_right _ _)) h

/-- A leaf of a proof is genuine when neither it nor any committed leaf has the length of an inner node. -/
theorem mem_leaves_of_root_eq {t t' : HashTree δ} (hroot : t'.root H = t.root H)
    (hcf : H.CollisionFree (t.hashed H ++ t'.hashed H))
    (hgiven : ∀ d ∈ t.givens, ∀ x ∈ t'.hashed H, H.hash x ≠ d)
    (hlen : ∀ c ∈ t.leaves, c.length ≠ 2 * H.width) {b : Bytes} (hb : b ∈ t'.leaves)
    (hblen : b.length ≠ 2 * H.width) : b ∈ t.leaves := by
  rcases mem_leaves_or hroot hcf hgiven hb with h | h | ⟨c, hc, h⟩
  · exact h
  · exact absurd (length_of_mem_inner h) hblen
  · exact absurd h (hlen c hc)

/-! ### One tree over different leaves -/

/-- The same tree over other leaves. -/
def mapLeaves (f : Bytes → Bytes) : HashTree δ → HashTree δ
  | leaf b => leaf (f b)
  | given d => given d
  | node l r => node (mapLeaves f l) (mapLeaves f r)

@[simp] theorem isLeaf_mapLeaves (f : Bytes → Bytes) (t : HashTree δ) : (t.mapLeaves f).isLeaf = t.isLeaf := by
  cases t <;> rfl

/-- Over leaves that give the same root a tree has the same leaves, when no two of the hashed strings collide. -/
theorem eq_of_root_mapLeaves_eq {t : HashTree δ} {f g : Bytes → Bytes}
    (hroot : (t.mapLeaves f).root H = (t.mapLeaves g).root H)
    (hcf : H.CollisionFree ((t.mapLeaves f).hashed H ++ (t.mapLeaves g).hashed H)) {b : Bytes} (hb : b ∈ t.leaves) :
    f b = g b := by
  induction t with
  | given d => cases hb
  | leaf c =>
    obtain rfl : b = c := by simpa [leaves] using hb
    apply hcf (f b) _ (g b) _ hroot
    · exact List.mem_append_left _ (leaf_mem_hashed (by simp [mapLeaves, leaves]))
    · exact List.mem_append_right _ (leaf_mem_hashed (by simp [mapLeaves, leaves]))
  | node l r ihl ihr =>
    have heq := hcf _ (List.mem_append_left _ (pair_mem_hashed (l.mapLeaves f) (r.mapLeaves f))) _
      (List.mem_append_right _ (pair_mem_hashed (l.mapLeaves g) (r.mapLeaves g))) hroot
    obtain ⟨hl, hr⟩ := H.pair_inj heq
    have hcase : b ∈ l.leaves ∨ b ∈ r.leaves := by simpa [leaves] using hb
    rcases hcase with hb | hb
    · exact ihl hl (hcf.mono (hashed_left_subset _ _) (hashed_left_subset _ _)) hb
    · exact ihr hr (hcf.mono (hashed_right_subset _ _) (hashed_right_subset _ _)) hb

end HashTree
