import Mathlib

/-!
# A SCALE codec

A codec is an encoder with a decoder that reads one value off the front of its input and hands back the unread
bytes.  Both laws are fields: decoding undoes encoding in front of any trailing bytes, and whatever was decoded is
the encoding of the result (so every accepted input is canonical).  Fixed-width little-endian words, compact
lengths with their four size classes, vectors with a compact length prefix and tuples are built from these.
-/

namespace Scale

abbrev Bytes := List UInt8

/-- An encoder and a decoder of prefixes that undo each other. -/
structure Codec (α : Type) where
  encode : α → Bytes
  decode : Bytes → Option (α × Bytes)
  decode_encode : ∀ a t, decode (encode a ++ t) = some (a, t)
  eq_encode_of_decode : ∀ {b a t}, decode b = some (a, t) → b = encode a ++ t

namespace Codec

variable {α β : Type}

/-- Encodings are prefix-free: the value and the trailing bytes are determined by the whole. -/
theorem encode_append_inj (c : Codec α) {a a' : α} {t t' : Bytes} (h : c.encode a ++ t = c.encode a' ++ t') :
    a = a' ∧ t = t' := by
  have h1 := c.decode_encode a t
  rw [h, c.decode_encode] at h1
  simp only [Option.some.injEq, Prod.mk.injEq] at h1
  exact ⟨h1.1.symm, h1.2.symm⟩

theorem encode_injective (c : Codec α) : Function.Injective c.encode := by
  intro a a' h
  have h' : c.encode a ++ [] = c.encode a' ++ [] := by rw [h]
  exact (c.encode_append_inj h').1

/-- What decodes is at least as long as the shortest encoding. -/
theorem le_length_of_decode (c : Codec α) {n : ℕ} (hn : ∀ a, n ≤ (c.encode a).length) {b t : Bytes} {a : α}
    (h : c.decode b = some (a, t)) : n ≤ b.length := by
  rw [c.eq_encode_of_decode h, List.length_append]
  have := hn a
  omega

/-! ### Bytes, tuples and change of type -/

/-- An array of `n` bytes is its own encoding. -/
def array (n : ℕ) : Codec {b : Bytes // b.length = n} where
  encode a := a.1
  decode b := if h : n ≤ b.length then some (⟨b.take n, by simp [h]⟩, b.drop n) else none
  decode_encode a t := by
    obtain ⟨a, rfl⟩ := a
    simp
  eq_encode_of_decode {b a t} h := by
    split at h
    · simp only [Option.some.injEq, Prod.mk.injEq] at h
      obtain ⟨rfl, rfl⟩ := h
      exact (List.take_append_drop n b).symm
    · cases h

/-- The fields of a tuple are encoded in order. -/
def prod (c : Codec α) (d : Codec β) : Codec (α × β) where
  encode p := c.encode p.1 ++ d.encode p.2
  decode b := (c.decode b).bind fun x => (d.decode x.2).map fun y => ((x.1, y.1), y.2)
  decode_encode p t := by simp [c.decode_encode, d.decode_encode]
  eq_encode_of_decode {b p t} h := by
    simp only [Option.bind_eq_some_iff, Option.map_eq_some_iff, Prod.mk.injEq] at h
    obtain ⟨x, hx, y, hy, rfl, rfl⟩ := h
    rw [c.eq_encode_of_decode hx, d.eq_encode_of_decode hy, List.append_assoc]

/-- A codec of `α` read as a codec of `β`. -/
def ofEquiv (c : Codec α) (e : α ≃ β) : Codec β where
  encode b := c.encode (e.symm b)
  decode b := (c.decode b).map fun x => (e x.1, x.2)
  decode_encode a t := by simp [c.decode_encode]
  eq_encode_of_decode {b a t} h := by
    simp only [Option.map_eq_some_iff, Prod.mk.injEq] at h
    obtain ⟨x, hx, rfl, rfl⟩ := h
    rw [Equiv.symm_apply_apply]
    exact c.eq_encode_of_decode hx

end Codec

/-! ### Little-endian words -/

/-- The `n` low bytes of `x`, least significant first. -/
def leBytes : ℕ → ℕ → Bytes
  | 0, _ => []
  | n + 1, x => UInt8.ofNat x :: leBytes n (x / 256)

/-- The number written little-endian in `b`. -/
def ofLeBytes : Bytes → ℕ
  | [] => 0
  | x :: b => x.toNat + 256 * ofLeBytes b

@[simp] theorem length_leBytes (n x : ℕ) : (leBytes n x).length = n := by
  induction n generalizing x with
  | zero => rfl
  | succ n ih => simp [leBytes, ih]

theorem ofLeBytes_lt (b : Bytes) : ofLeBytes b < 256 ^ b.length := by
  induction b with
  | nil => simp [ofLeBytes]
  | cons x b ih =>
    have := x.toNat_lt
    simp only [ofLeBytes, List.length_cons, pow_succ]
    omega

theorem ofLeBytes_leBytes {n x : ℕ} (h : x < 256 ^ n) : ofLeBytes (leBytes n x) = x := by
  induction n generalizing x with
  | zero => simp only [pow_zero] at h; simp [leBytes, ofLeBytes]; omega
  | succ n ih =>
    have hx : x / 256 < 256 ^ n := by
      rw [Nat.div_lt_iff_lt_mul (by decide)]
      simpa [pow_succ] using h
    simp only [leBytes, ofLeBytes, ih hx, UInt8.toNat_ofNat']
    omega

theorem leBytes_ofLeBytes (b : Bytes) : leBytes b.length (ofLeBytes b) = b := by
  induction b with
  | nil => rfl
  | cons x b ih =>
    have hx := x.toNat_lt
    have hdiv : (x.toNat + 256 * ofLeBytes b) / 256 = ofLeBytes b := by omega
    have hmod : UInt8.ofNat (x.toNat + 256 * ofLeBytes b) = x := by
      apply UInt8.toNat_inj.mp
      rw [UInt8.toNat_ofNat']
      omega
    simp only [List.length_cons, leBytes, ofLeBytes, hdiv, hmod, ih]

/-- The little-endian word of `n` bytes. -/
def word (n : ℕ) : Codec (Fin (256 ^ n)) :=
  (Codec.array n).ofEquiv
    { toFun := fun b => ⟨ofLeBytes b.1, by have := ofLeBytes_lt b.1; rwa [b.2] at this⟩
      invFun := fun x => ⟨leBytes n x, length_leBytes n x⟩
      left_inv := by
        rintro ⟨b, rfl⟩
        exact Subtype.ext (leBytes_ofLeBytes b)
      right_inv := fun x => Fin.ext (ofLeBytes_leBytes x.2) }

def u8 : Codec UInt8 :=
  (word 1).ofEquiv ⟨UInt8.ofFin, UInt8.toFin, fun _ => rfl, fun _ => rfl⟩

def u32 : Codec UInt32 :=
  (word 4).ofEquiv ⟨UInt32.ofFin, UInt32.toFin, fun _ => rfl, fun _ => rfl⟩

def u64 : Codec UInt64 :=
  (word 8).ofEquiv ⟨UInt64.ofFin, UInt64.toFin, fun _ => rfl, fun _ => rfl⟩

@[simp] theorem length_encode_u8 (x : UInt8) : (u8.encode x).length = 1 := length_leBytes 1 _

@[simp] theorem length_encode_u32 (x : UInt32) : (u32.encode x).length = 4 := length_leBytes 4 _

@[simp] theorem length_encode_u64 (x : UInt64) : (u64.encode x).length = 8 := length_leBytes 8 _

/-! ### Compact numbers -/

/-- The compact form of a `u32`: the two low bits of the first byte name one of four size classes. -/
def encodeCompact (x : ℕ) : Bytes :=
  if x < 2 ^ 6 then leBytes 1 (4 * x)
  else if x < 2 ^ 14 then leBytes 2 (4 * x + 1)
  else if x < 2 ^ 30 then leBytes 4 (4 * x + 2)
  else leBytes 5 (256 * x + 3)

/-- Reads a word of `n` bytes, drops its low digit in base `d`, and refuses a value that a smaller size class
can hold. -/
def decodeClass (n d least : ℕ) (b : Bytes) : Option (ℕ × Bytes) :=
  ((word n).decode b).bind fun x => if least ≤ x.1 / d then some (x.1 / d, x.2) else none

def decodeCompact : Bytes → Option (ℕ × Bytes)
  | [] => none
  | p :: b =>
    match p.toNat % 4 with
    | 0 => decodeClass 1 4 0 (p :: b)
    | 1 => decodeClass 2 4 (2 ^ 6) (p :: b)
    | 2 => decodeClass 4 4 (2 ^ 14) (p :: b)
    -- the only prefix of the last class that fits a `u32` is the one for four further bytes
    | _ => if p = 3 then decodeClass 5 256 (2 ^ 30) (p :: b) else none

private theorem decodeClass_append (n d r : ℕ) {least x : ℕ} (t : Bytes) (hr : r < d) (hx : least ≤ x)
    (hlt : d * x + r < 256 ^ n) : decodeClass n d least (leBytes n (d * x + r) ++ t) = some (x, t) := by
  have hdiv : (d * x + r) / d = x := by
    rw [Nat.mul_add_div (by omega), Nat.div_eq_of_lt hr, Nat.add_zero]
  have hdec := (word n).decode_encode ⟨d * x + r, hlt⟩ t
  simp only [decodeClass]
  rw [show leBytes n (d * x + r) = (word n).encode ⟨d * x + r, hlt⟩ from rfl, hdec]
  simp [hdiv, hx]

private theorem decodeClass_eq_some {n d least : ℕ} {b t : Bytes} {x : ℕ}
    (h : decodeClass n d least b = some (x, t)) :
    ∃ w, w < 256 ^ n ∧ b = leBytes n w ++ t ∧ x = w / d ∧ least ≤ x := by
  simp only [decodeClass, Option.bind_eq_some_iff] at h
  obtain ⟨y, hy, h⟩ := h
  split at h
  · simp only [Option.some.injEq, Prod.mk.injEq] at h
    obtain ⟨rfl, rfl⟩ := h
    exact ⟨y.1, y.1.2, (word n).eq_encode_of_decode hy, rfl, by assumption⟩
  · cases h

theorem decodeCompact_encodeCompact {x : ℕ} (hx : x < 2 ^ 32) (t : Bytes) :
    decodeCompact (encodeCompact x ++ t) = some (x, t) := by
  unfold encodeCompact
  split_ifs with h1 h2 h3
  · have hd := decodeClass_append 1 4 0 t (by omega) (Nat.zero_le x)
      (by norm_num; omega)
    have hp : (UInt8.ofNat (4 * x)).toNat % 4 = 0 := by rw [UInt8.toNat_ofNat']; omega
    simp only [leBytes, List.cons_append, List.nil_append, Nat.add_zero] at hd ⊢
    simp only [decodeCompact, hp, hd]
  · have hd := decodeClass_append 2 4 1 t (by omega) (Nat.le_of_not_lt h1)
      (by norm_num; omega)
    have hp : (UInt8.ofNat (4 * x + 1)).toNat % 4 = 1 := by rw [UInt8.toNat_ofNat']; omega
    simp only [leBytes, List.cons_append, List.nil_append] at hd ⊢
    simp only [decodeCompact, hp, hd]
  · have hd := decodeClass_append 4 4 2 t (by omega) (Nat.le_of_not_lt h2)
      (by norm_num; omega)
    have hp : (UInt8.ofNat (4 * x + 2)).toNat % 4 = 2 := by rw [UInt8.toNat_ofNat']; omega
    simp only [leBytes, List.cons_append, List.nil_append] at hd ⊢
    simp only [decodeCompact, hp, hd]
  · have hd := decodeClass_append 5 256 3 t (by omega) (Nat.le_of_not_lt h3)
      (by norm_num; omega)
    have hp : UInt8.ofNat (256 * x + 3) = 3 := by
      apply UInt8.toNat_inj.mp
      rw [UInt8.toNat_ofNat']
      simp
    simp only [leBytes, List.cons_append, List.nil_append, hp] at hd ⊢
    simp only [decodeCompact, ↓reduceIte, hd]
    rfl

/-- The first byte of a little-endian word. -/
private theorem head_leBytes {n w : ℕ} {p : UInt8} {b t : Bytes} (h : p :: b = leBytes (n + 1) w ++ t) :
    p.toNat = w % 256 := by
  simp only [leBytes, List.cons_append, List.cons.injEq] at h
  rw [h.1, UInt8.toNat_ofNat']

theorem eq_encodeCompact_of_decodeCompact {b t : Bytes} {x : ℕ} (h : decodeCompact b = some (x, t)) :
    x < 2 ^ 32 ∧ b = encodeCompact x ++ t := by
  unfold decodeCompact at h
  split at h
  · cases h
  · rename_i p b
    split at h
    · rename_i hp
      obtain ⟨w, hw, hb, rfl, -⟩ := decodeClass_eq_some h
      have := head_leBytes hb
      norm_num at hw
      have he : encodeCompact (w / 4) = leBytes 1 w := by
        rw [encodeCompact, if_pos (by omega), show 4 * (w / 4) = w by omega]
      exact ⟨by omega, by rw [hb, he]⟩
    · rename_i hp
      obtain ⟨w, hw, hb, rfl, hl⟩ := decodeClass_eq_some h
      have := head_leBytes hb
      norm_num at hw hl
      have he : encodeCompact (w / 4) = leBytes 2 w := by
        rw [encodeCompact, if_neg (by omega), if_pos (by omega), show 4 * (w / 4) + 1 = w by omega]
      exact ⟨by omega, by rw [hb, he]⟩
    · rename_i hp
      obtain ⟨w, hw, hb, rfl, hl⟩ := decodeClass_eq_some h
      have := head_leBytes hb
      norm_num at hw hl
      have he : encodeCompact (w / 4) = leBytes 4 w := by
        rw [encodeCompact, if_neg (by omega), if_neg (by omega), if_pos (by omega),
          show 4 * (w / 4) + 2 = w by omega]
      exact ⟨by omega, by rw [hb, he]⟩
    · split at h
      · rename_i hp
        obtain ⟨w, hw, hb, rfl, hl⟩ := decodeClass_eq_some h
        have hp' : w % 256 = 3 := by rw [← head_leBytes hb, hp]; rfl
        norm_num at hw hl
        have he : encodeCompact (w / 256) = leBytes 5 w := by
          rw [encodeCompact, if_neg (by omega), if_neg (by omega), if_neg (by omega),
            show 256 * (w / 256) + 3 = w by omega]
        exact ⟨by omega, by rw [hb, he]⟩
      · cases h

/-- Compact `u32`s. -/
def compact : Codec UInt32 where
  encode x := encodeCompact x.toNat
  decode b := (decodeCompact b).map fun x => (UInt32.ofNat x.1, x.2)
  decode_encode x t := by
    rw [decodeCompact_encodeCompact x.toNat_lt]
    simp
  eq_encode_of_decode {b a t} h := by
    simp only [Option.map_eq_some_iff, Prod.mk.injEq] at h
    obtain ⟨x, hx, rfl, rfl⟩ := h
    obtain ⟨hlt, hb⟩ := eq_encodeCompact_of_decodeCompact hx
    rw [UInt32.toNat_ofNat', Nat.mod_eq_of_lt hlt, hb]

theorem length_encodeCompact_pos (x : ℕ) : 1 ≤ (encodeCompact x).length := by
  unfold encodeCompact
  split_ifs <;> simp

theorem two_le_length_encodeCompact {x : ℕ} (h : 2 ^ 6 ≤ x) : 2 ≤ (encodeCompact x).length := by
  unfold encodeCompact
  split_ifs <;> first | omega | simp

/-! ### Vectors -/

/-- Lists whose length fits the `u32` of the length prefix. -/
abbrev Vec (α : Type) := {l : List α // l.length < 2 ^ 32}

variable {α : Type}

def encodeList (c : Codec α) (l : List α) : Bytes := l.flatMap c.encode

def decodeList (c : Codec α) : ℕ → Bytes → Option (List α × Bytes)
  | 0, b => some ([], b)
  | n + 1, b => (c.decode b).bind fun x => (decodeList c n x.2).map fun y => (x.1 :: y.1, y.2)

theorem decodeList_encodeList (c : Codec α) (l : List α) (t : Bytes) :
    decodeList c l.length (encodeList c l ++ t) = some (l, t) := by
  induction l with
  | nil => rfl
  | cons a l ih =>
    simp only [encodeList] at ih
    simp only [encodeList, List.flatMap_cons, List.length_cons, decodeList, List.append_assoc, c.decode_encode,
      Option.bind_some, ih, Option.map_some]

theorem eq_encodeList_of_decodeList (c : Codec α) {n : ℕ} {b t : Bytes} {l : List α}
    (h : decodeList c n b = some (l, t)) : l.length = n ∧ b = encodeList c l ++ t := by
  induction n generalizing b l with
  | zero =>
    simp only [decodeList, Option.some.injEq, Prod.mk.injEq] at h
    obtain ⟨rfl, rfl⟩ := h
    exact ⟨rfl, rfl⟩
  | succ n ih =>
    simp only [decodeList, Option.bind_eq_some_iff, Option.map_eq_some_iff, Prod.mk.injEq] at h
    obtain ⟨x, hx, y, hy, rfl, rfl⟩ := h
    obtain ⟨hl, hb⟩ := ih hy
    refine ⟨by simp [hl], ?_⟩
    rw [c.eq_encode_of_decode hx, hb]
    simp [encodeList]

/-- A vector is its compact length followed by its elements. -/
def vec (c : Codec α) : Codec (Vec α) where
  encode l := encodeCompact l.1.length ++ encodeList c l.1
  decode b := (decodeCompact b).bind fun n => (decodeList c n.1 n.2).bind fun l =>
    if h : l.1.length < 2 ^ 32 then some (⟨l.1, h⟩, l.2) else none
  decode_encode l t := by
    rw [List.append_assoc, decodeCompact_encodeCompact l.2, Option.bind_some, decodeList_encodeList,
      Option.bind_some, dif_pos l.2]
  eq_encode_of_decode {b a t} h := by
    simp only [Option.bind_eq_some_iff] at h
    obtain ⟨n, hn, l, hl, h⟩ := h
    split at h
    · simp only [Option.some.injEq, Prod.mk.injEq] at h
      obtain ⟨rfl, rfl⟩ := h
      obtain ⟨hlen, hb⟩ := eq_encodeList_of_decodeList c hl
      rw [(eq_encodeCompact_of_decodeCompact hn).2, hb, hlen, List.append_assoc]
    · cases h

/-- Byte strings: `Vec<u8>`. -/
def byteVec : Codec (Vec UInt8) := vec u8

private theorem encodeList_u8 (l : Bytes) : encodeList u8 l = l := by
  have h : ∀ x : UInt8, u8.encode x = [x] := fun x => by
    have hx : UInt8.ofNat x.toNat = x := UInt8.ofNat_toNat
    exact congrArg (· :: []) hx
  unfold encodeList
  induction l with
  | nil => rfl
  | cons x l ih => rw [List.flatMap_cons, h, ih]; rfl

theorem encode_byteVec (v : Vec UInt8) : byteVec.encode v = encodeCompact v.1.length ++ v.1 := by
  show encodeCompact v.1.length ++ encodeList u8 v.1 = _
  rw [encodeList_u8]

example : byteVec.encode ⟨[7, 8], by decide⟩ = [8, 7, 8] := by decide

end Scale
