import XcmpPrototype.Runs
import Mathlib.Logic.Function.Basic

/-!
# Interacting programs

A program asks questions and goes on with the answers; it ends with a value or an error.  `Prog.wp` is what has to be
shown of a program when every answer is known to satisfy `Φ`: each question satisfies `Ψ` when it is asked, and the
result satisfies the postcondition.  Both may speak of the questions and answers so far.

A `Machine` runs several tasks side by side on a shared state.  A task goes through a body again and again; between two
of its answers all other tasks may move.  A `Spec` gives an invariant of the shared state, local facts about the shared
state that hold inside a body, and the parameters of `Prog.wp`.  If it is `Sound`, it holds in every reachable state
(`Spec.Sound.holds`).
-/

/-- A program that asks `q` and continues with an answer in `A q`. -/
inductive Prog {Q : Type} (A : Q → Type) (ε α : Type) where
  | ret (a : α)
  | throw (e : ε)
  | ask (q : Q) (k : A q → Prog A ε α)

/-- Questions with their answers, the latest first. -/
abbrev Hist {Q : Type} (A : Q → Type) := List (Sigma A)

namespace Prog

variable {Q : Type} {A : Q → Type} {ε α β : Type}

def bind : Prog A ε α → (α → Prog A ε β) → Prog A ε β
  | ret a, f => f a
  | throw e, _ => throw e
  | ask q k, f => ask q fun a => (k a).bind f

instance : Monad (Prog A ε) where
  pure := ret
  bind := bind

instance : LawfulMonad (Prog A ε) := LawfulMonad.mk' _
  (fun p => by
    show p.bind ret = p
    induction p with
    | ret a => rfl
    | throw e => rfl
    | ask q k ih => exact congrArg (ask q) (funext ih))
  (fun _ _ => rfl)
  (fun p f g => by
    show (p.bind f).bind g = p.bind fun a => (f a).bind g
    induction p with
    | ret a => rfl
    | throw e => rfl
    | ask q k ih => exact congrArg (ask q) (funext ih))

def query (q : Q) : Prog A ε (A q) := ask q ret

def ofOption (e : ε) : Option α → Prog A ε α
  | some a => ret a
  | none => throw e

def check (e : ε) (c : Bool) : Prog A ε Unit := if c then ret () else throw e

/-! ### What has to be shown of a program -/

def wp (Φ : (q : Q) → A q → Prop) (Ψ : Hist A → Q → Prop) :
    Hist A → Prog A ε α → (Hist A → Except ε α → Prop) → Prop
  | h, ret a, post => post h (.ok a)
  | h, throw e, post => post h (.error e)
  | h, ask q k, post => Ψ h q ∧ ∀ a, Φ q a → wp Φ Ψ (⟨q, a⟩ :: h) (k a) post

section Rules

variable {Φ : (q : Q) → A q → Prop} {Ψ : Hist A → Q → Prop} {h : Hist A}

@[simp] theorem wp_pure {a : α} {post : Hist A → Except ε α → Prop} :
    wp Φ Ψ h (pure a) post ↔ post h (.ok a) := Iff.rfl

@[simp] theorem wp_query {q : Q} {post : Hist A → Except ε (A q) → Prop} :
    wp Φ Ψ h (query q) post ↔ Ψ h q ∧ ∀ a, Φ q a → post (⟨q, a⟩ :: h) (.ok a) := Iff.rfl

@[simp] theorem wp_ofOption {o : Option α} {e : ε} {post : Hist A → Except ε α → Prop} :
    wp Φ Ψ h (ofOption e o) post ↔ (∀ a, o = some a → post h (.ok a)) ∧ (o = none → post h (.error e)) := by
  cases o <;> simp [ofOption, wp]

@[simp] theorem wp_check {c : Bool} {e : ε} {post : Hist A → Except ε Unit → Prop} :
    wp Φ Ψ h (check e c) post ↔ (c = true → post h (.ok ())) ∧ (c = false → post h (.error e)) := by
  cases c <;> simp [check, wp]

/-- The rest of a program after its first part. -/
def onOk (f : α → Prog A ε β) (Φ : (q : Q) → A q → Prop) (Ψ : Hist A → Q → Prop)
    (post : Hist A → Except ε β → Prop) : Hist A → Except ε α → Prop
  | h, .ok a => wp Φ Ψ h (f a) post
  | h, .error e => post h (.error e)

@[simp] theorem onOk_ok {f : α → Prog A ε β} {post : Hist A → Except ε β → Prop} {a : α} :
    onOk f Φ Ψ post h (.ok a) ↔ wp Φ Ψ h (f a) post := Iff.rfl

@[simp] theorem onOk_error {f : α → Prog A ε β} {post : Hist A → Except ε β → Prop} {e : ε} :
    onOk f Φ Ψ post h (.error e) ↔ post h (.error e) := Iff.rfl

@[simp] theorem wp_bind {p : Prog A ε α} {f : α → Prog A ε β} {post : Hist A → Except ε β → Prop} :
    wp Φ Ψ h (p >>= f) post ↔ wp Φ Ψ h p (onOk f Φ Ψ post) := by
  show wp Φ Ψ h (p.bind f) post ↔ _
  induction p generalizing h with
  | ret a => rfl
  | throw e => rfl
  | ask q k ih => exact and_congr Iff.rfl (forall_congr' fun a => imp_congr Iff.rfl (ih a))

theorem wp_mono {p : Prog A ε α} {post post' : Hist A → Except ε α → Prop} (hpost : ∀ h r, post h r → post' h r)
    (hp : wp Φ Ψ h p post) : wp Φ Ψ h p post' := by
  induction p generalizing h with
  | ret a => exact hpost h _ hp
  | throw e => exact hpost h _ hp
  | ask q k ih => exact ⟨hp.1, fun a ha => ih a (hp.2 a ha)⟩

theorem wp_mono_asked {Φ' : (q : Q) → A q → Prop} {Ψ' : Hist A → Q → Prop} {p : Prog A ε α}
    {post : Hist A → Except ε α → Prop} (hΦ : ∀ q a, Φ' q a → Φ q a) (hΨ : ∀ h q, Ψ h q → Ψ' h q)
    (hp : wp Φ Ψ h p post) : wp Φ' Ψ' h p post := by
  induction p generalizing h with
  | ret a => exact hp
  | throw e => exact hp
  | ask q k ih => exact ⟨hΨ h q hp.1, fun a ha => ih a (hp.2 a (hΦ q a ha))⟩

theorem wp_trivial {p : Prog A ε α} : wp Φ (fun _ _ => True) h p fun _ _ => True := by
  induction p generalizing h with
  | ret a => trivial
  | throw e => trivial
  | ask q k ih => exact ⟨trivial, fun a _ => ih a⟩

theorem wp_and {Ψ' : Hist A → Q → Prop} {p : Prog A ε α} {post post' : Hist A → Except ε α → Prop}
    (hp : wp Φ Ψ h p post) (hp' : wp Φ Ψ' h p post') :
    wp Φ (fun h q => Ψ h q ∧ Ψ' h q) h p fun h r => post h r ∧ post' h r := by
  induction p generalizing h with
  | ret a => exact ⟨hp, hp'⟩
  | throw e => exact ⟨hp, hp'⟩
  | ask q k ih => exact ⟨⟨hp.1, hp'.1⟩, fun a ha => ih a (hp.2 a ha) (hp'.2 a ha)⟩

/-- What holds of all questions when they are asked holds of all questions in the history. -/
theorem wp_hist {P : Q → Prop} {p : Prog A ε α} (hh : ∀ x ∈ h, P x.1)
    (hp : wp Φ (fun _ q => P q) h p fun _ _ => True) :
    wp Φ (fun _ _ => True) h p fun h' _ => ∀ x ∈ h', P x.1 := by
  induction p generalizing h with
  | ret a => exact hh
  | throw e => exact hh
  | ask q k ih =>
    refine ⟨trivial, fun a ha => ih a ?_ (hp.2 a ha)⟩
    intro x hx
    rcases List.mem_cons.1 hx with rfl | hx
    · exact hp.1
    · exact hh x hx

end Rules

/-! ### A program alone -/

section Alone

variable {σ : Type} (stop : Q → Bool) (reply : σ → (q : Q) → A q × σ)

/-- Runs a program while nothing else moves, with the answers that `reply` gives, up to a question at which to `stop`
or to its end. -/
def alone : σ → Hist A → Prog A ε α → σ × Hist A × Prog A ε α
  | s, h, .ret a => (s, h, .ret a)
  | s, h, .throw e => (s, h, .throw e)
  | s, h, .ask q k =>
    if stop q then (s, h, .ask q k) else alone (reply s q).2 (⟨q, (reply s q).1⟩ :: h) (k (reply s q).1)

variable {shared : σ} {h : Hist A} {f : α → Prog A ε β}

@[simp] theorem alone_pure {a : α} : alone stop reply shared h (pure a : Prog A ε α) = (shared, h, .ret a) := rfl

theorem alone_query_bind {q : Q} {f : A q → Prog A ε β} :
    alone (fun _ => false) reply shared h (query q >>= f) =
      alone (fun _ => false) reply (reply shared q).2 (⟨q, (reply shared q).1⟩ :: h) (f (reply shared q).1) := rfl

theorem alone_ofOption_bind {e : ε} {o : Option α} :
    alone stop reply shared h (ofOption e o >>= f) =
      match o with
      | some a => alone stop reply shared h (f a)
      | none => (shared, h, .throw e) := by
  cases o <;> rfl

theorem alone_check_bind {e : ε} {c : Bool} {f : Unit → Prog A ε β} :
    alone stop reply shared h (check e c >>= f) =
      if c then alone stop reply shared h (f ()) else (shared, h, .throw e) := by
  cases c <;> rfl

theorem alone_ite {c : Bool} {p p' : Prog A ε α} :
    alone stop reply shared h (if c = true then p else p') =
      if c = true then alone stop reply shared h p else alone stop reply shared h p' := by
  cases c <;> rfl

/-- Alone, the second part of a program starts where the first one has ended. -/
theorem alone_bind (p : Prog A ε α) :
    alone stop reply shared h (p >>= f) =
      match alone stop reply shared h p with
      | (shared', h', .ret a) => alone stop reply shared' h' (f a)
      | (shared', h', .throw e) => (shared', h', .throw e)
      | (shared', h', .ask q k) => (shared', h', .ask q fun a => k a >>= f) := by
  induction p generalizing shared h with
  | ret a => rfl
  | throw e => rfl
  | ask q k ih =>
    by_cases hq : stop q = true
    · show alone stop reply shared h (ask q fun a => k a >>= f) = _
      simp only [alone, hq, ↓reduceIte]
    · show alone stop reply shared h (ask q fun a => k a >>= f) = _
      simp only [alone, hq, Bool.false_eq_true, ↓reduceIte]
      exact ih _

/-- What has been shown of a program holds when it runs alone to its end. -/
theorem wp_alone {Φ : (q : Q) → A q → Prop} {Ψ : Hist A → Q → Prop} {post : Hist A → Except ε α → Prop}
    (hreply : ∀ s q, Φ q (reply s q).1) {p : Prog A ε α} (hp : wp Φ Ψ h p post) (shared : σ) :
    match alone (fun _ => false) reply shared h p with
    | (_, h', .ret a) => post h' (.ok a)
    | (_, h', .throw e) => post h' (.error e)
    | (_, _, .ask _ _) => False := by
  induction p generalizing shared h with
  | ret a => exact hp
  | throw e => exact hp
  | ask q k ih => exact ih _ (hp.2 _ (hreply shared q)) _

end Alone

end Prog

/-! ### Tasks on a shared state -/

/-- Tasks `ι` whose bodies take an input in `B`; the outside world acts on the shared state `σ` by `W`.  An answer
either cannot be given in a state or leads to the next one.  A task that `survives` an error starts again. -/
structure Machine (ι σ B W : Type) {Q : Type} (A : Q → Type) (ε : Type) where
  body : ι → B → Prog A ε Unit
  handle : σ → (q : Q) → A q → Option σ
  world : σ → W → σ
  survives : ι → Bool

namespace Machine

variable {ι σ B W Q : Type} {A : Q → Type} {ε : Type}

inductive Task (B : Type) {Q : Type} (A : Q → Type) (ε : Type) where
  | idle
  | running (b : B) (h : Hist A) (p : Prog A ε Unit)
  | stopped

/-- A body that came to its end, with the shared state at that moment. -/
structure Ended (ι σ B : Type) {Q : Type} (A : Q → Type) (ε : Type) where
  task : ι
  input : B
  hist : Hist A
  result : Except ε Unit
  shared : σ

structure State (ι σ B : Type) {Q : Type} (A : Q → Type) (ε : Type) where
  shared : σ
  tasks : ι → Task B A ε
  ended : List (Ended ι σ B A ε)

inductive Event (ι B W : Type) {Q : Type} (A : Q → Type) where
  | start (i : ι) (b : B)
  | answer (i : ι) (q : Q) (a : A q)
  | finish (i : ι)
  | world (w : W)

def State.init (s : σ) : State ι σ B A ε := ⟨s, fun _ => .idle, []⟩

variable [DecidableEq ι] [DecidableEq Q] (M : Machine ι σ B W A ε)

def close (s : State ι σ B A ε) (i : ι) (b : B) (h : Hist A) (r : Except ε Unit) (t : Task B A ε) :
    State ι σ B A ε :=
  { s with tasks := Function.update s.tasks i t, ended := ⟨i, b, h, r, s.shared⟩ :: s.ended }

def step (s : State ι σ B A ε) : Event ι B W A → Option (State ι σ B A ε)
  | .start i b =>
    match s.tasks i with
    | .idle => some { s with tasks := Function.update s.tasks i (.running b [] (M.body i b)) }
    | _ => none
  | .answer i q a =>
    match s.tasks i with
    | .running b h (.ask q' k) =>
      if e : q = q' then
        (M.handle s.shared q a).map fun shared =>
          { s with shared := shared, tasks := Function.update s.tasks i (.running b (⟨q, a⟩ :: h) (k (e ▸ a))) }
      else none
    | _ => none
  | .finish i =>
    match s.tasks i with
    | .running b h (.ret _) => some (close s i b h (.ok ()) .idle)
    | .running b h (.throw e) => some (close s i b h (.error e) (if M.survives i then .idle else .stopped))
    | _ => none
  | .world w => some { s with shared := M.world s.shared w }

/-- The four ways to move. -/
inductive Moves (s : State ι σ B A ε) : Event ι B W A → State ι σ B A ε → Prop
  | start (i : ι) (b : B) : s.tasks i = .idle →
      Moves s (.start i b) { s with tasks := Function.update s.tasks i (.running b [] (M.body i b)) }
  | answer (i : ι) (b : B) (h : Hist A) (q : Q) (k : A q → Prog A ε Unit) (a : A q) (shared : σ) :
      s.tasks i = .running b h (.ask q k) → M.handle s.shared q a = some shared →
      Moves s (.answer i q a)
        { s with shared := shared, tasks := Function.update s.tasks i (.running b (⟨q, a⟩ :: h) (k a)) }
  | finish (i : ι) (b : B) (h : Hist A) (p : Prog A ε Unit) (r : Except ε Unit) (t : Task B A ε) :
      s.tasks i = .running b h p → (p = .ret () ∧ r = .ok () ∨ ∃ e, p = .throw e ∧ r = .error e) →
      (t = .idle ∨ t = .stopped) → Moves s (.finish i) (close s i b h r t)
  | world (w : W) : Moves s (.world w) { s with shared := M.world s.shared w }

variable {M} {s s' : State ι σ B A ε} {e : Event ι B W A}

theorem moves_of_step (hs : M.step s e = some s') : M.Moves s e s' := by
  cases e with
  | start i b =>
    simp only [step] at hs
    split at hs
    · rename_i ht
      cases hs
      exact .start i b ht
    · cases hs
  | answer i q a =>
    simp only [step] at hs
    split at hs
    · rename_i b h q' k ht
      split at hs
      · rename_i heq
        subst heq
        obtain ⟨shared, hh, rfl⟩ := Option.map_eq_some_iff.1 hs
        exact .answer i b h q k a shared ht hh
      · cases hs
    · cases hs
  | finish i =>
    simp only [step] at hs
    split at hs
    · rename_i b h u ht
      cases hs
      exact .finish i b h _ _ _ ht (Or.inl ⟨rfl, rfl⟩) (Or.inl rfl)
    · rename_i b h e ht
      cases hs
      refine .finish i b h _ _ _ ht (Or.inr ⟨e, rfl, rfl⟩) ?_
      split
      · exact Or.inl rfl
      · exact Or.inr rfl
    · cases hs
  | world w =>
    cases hs
    exact .world w

/-! ### Invariants of all runs -/

/-- What is claimed of a machine: `inv` of the shared state, `loc` of the shared state inside the body of a task, and
for the body of each task the parameters of `Prog.wp`. -/
structure Spec (ι σ B : Type) {Q : Type} (A : Q → Type) (ε : Type) where
  inv : σ → Prop
  loc : ι → B → σ → Hist A → Prop
  known : ι → B → (q : Q) → A q → Prop
  asked : ι → B → Hist A → Q → Prop
  post : ι → B → Hist A → Except ε Unit → Prop

namespace Spec

variable (S : Spec ι σ B A ε) (M : Machine ι σ B W A ε) (C : State ι σ B A ε → Event ι B W A → Prop)

/-- The obligations for runs whose steps meet `C`.  A task keeps the local facts of all other tasks. -/
structure Sound : Prop where
  body : ∀ i b, Prog.wp (S.known i b) (S.asked i b) [] (M.body i b) (S.post i b)
  start : ∀ i b shared, S.inv shared → S.loc i b shared []
  answer : ∀ (s : State ι σ B A ε) i b h q k a shared, s.tasks i = .running b h (.ask q k) → S.inv s.shared →
    S.loc i b s.shared h → S.asked i b h q → C s (.answer i q a) → M.handle s.shared q a = some shared →
    S.inv shared ∧ S.loc i b shared (⟨q, a⟩ :: h) ∧ S.known i b q a
  other : ∀ i j b c h h' q a s s', i ≠ j → S.loc i b s h → S.asked j c h' q → M.handle s q a = some s' →
    S.loc i b s' h
  world : ∀ s w, S.inv s → S.inv (M.world s w) ∧ ∀ i b h, S.loc i b s h → S.loc i b (M.world s w) h

/-- The state of a machine agrees with a specification. -/
structure Holds (s : State ι σ B A ε) : Prop where
  inv : S.inv s.shared
  running : ∀ i b h p, s.tasks i = .running b h p →
    Prog.wp (S.known i b) (S.asked i b) h p (S.post i b) ∧ S.loc i b s.shared h
  ended : ∀ x ∈ s.ended, S.post x.task x.input x.hist x.result ∧ S.loc x.task x.input x.shared x.hist

variable {S M C}

private theorem update_eq_iff {τ : Type} {f : ι → τ} {i j : ι} {t u : τ} :
    Function.update f i t j = u ↔ j = i ∧ t = u ∨ j ≠ i ∧ f j = u := by
  by_cases hij : j = i
  · subst hij
    simp
  · simp [hij]

omit [DecidableEq Q] in
private theorem Holds.of_moves (hS : S.Sound M C) (hs : S.Holds s) (hc : C s e) (hm : M.Moves s e s') :
    S.Holds s' := by
  cases hm with
  | start i b hi =>
    refine ⟨hs.inv, ?_, hs.ended⟩
    intro j c h p hj
    rcases update_eq_iff.1 hj with ⟨rfl, heq⟩ | ⟨hij, hj⟩
    · cases heq
      exact ⟨hS.body j b, hS.start j b _ hs.inv⟩
    · exact hs.running j c h p hj
  | answer i b h q k a shared hi hh =>
    obtain ⟨hwp, hloc⟩ := hs.running i b h _ hi
    obtain ⟨hinv, hloc', hknown⟩ := hS.answer s i b h q k a shared hi hs.inv hloc hwp.1 hc hh
    refine ⟨hinv, ?_, hs.ended⟩
    intro j c h' p hj
    rcases update_eq_iff.1 hj with ⟨rfl, heq⟩ | ⟨hij, hj⟩
    · cases heq
      exact ⟨hwp.2 a hknown, hloc'⟩
    · obtain ⟨hj1, hj2⟩ := hs.running j c h' p hj
      exact ⟨hj1, hS.other j i c b h' h q a _ _ hij hj2 hwp.1 hh⟩
  | finish i b h p r t hi hp ht =>
    obtain ⟨hwp, hloc⟩ := hs.running i b h p hi
    refine ⟨hs.inv, ?_, ?_⟩
    · intro j c h' p' hj
      rcases update_eq_iff.1 hj with ⟨rfl, heq⟩ | ⟨hij, hj⟩
      · rcases ht with rfl | rfl <;> cases heq
      · exact hs.running j c h' p' hj
    · intro x hx
      rcases List.mem_cons.1 hx with rfl | hx
      · refine ⟨?_, hloc⟩
        rcases hp with ⟨rfl, rfl⟩ | ⟨e, rfl, rfl⟩
        · exact hwp
        · exact hwp
      · exact hs.ended x hx
  | world w =>
    obtain ⟨hinv, hloc⟩ := hS.world s.shared w hs.inv
    exact ⟨hinv, fun i b h p hi => ⟨(hs.running i b h p hi).1, hloc i b h (hs.running i b h p hi).2⟩, hs.ended⟩

omit [DecidableEq ι] [DecidableEq Q] in
private theorem holds_init {shared : σ} (hinit : S.inv shared) : S.Holds (State.init shared) := by
  refine ⟨hinit, ?_, ?_⟩
  · intro i b h p hi
    cases hi
  · intro x hx
    cases hx

/-- A sound specification holds after every run from a state in which it holds with all tasks idle. -/
theorem Sound.holds (hS : S.Sound M C) (shared : σ) (hinit : S.inv shared)
    (h : Reaches M.step C (State.init shared) s) : S.Holds s :=
  h.invariant (holds_init hinit) fun _ _ _ hs hc hstep => hs.of_moves hS hc (moves_of_step hstep)

end Spec

/-! ### Records -/

/-- The history of the body that a task is in. -/
def Task.hists : Task B A ε → List (Hist A)
  | .running _ h _ => [h]
  | _ => []

/-- The histories of all bodies of a task, the latest first. -/
def State.hists (s : State ι σ B A ε) (i : ι) : List (Hist A) :=
  (s.tasks i).hists ++ (s.ended.filter fun x => x.task = i).map Ended.hist

/-- All questions of a task with their answers, the latest first. -/
def State.record (s : State ι σ B A ε) (i : ι) : Hist A := (s.hists i).flatten

omit [DecidableEq Q] in
private theorem State.hists_of_running {i : ι} {b : B} {h : Hist A} {p : Prog A ε Unit}
    (hi : s.tasks i = .running b h p) : s.hists i = h :: (s.ended.filter fun x => x.task = i).map Ended.hist := by
  simp [State.hists, hi, Task.hists]

omit [DecidableEq Q] in
/-- A body starts with no answers, and each answer is the latest of the body that a task is in. -/
theorem hists_of_moves (hm : M.Moves s e s') :
    s'.hists = match e with
      | .start i _ => Function.update s.hists i ([] :: s.hists i)
      | .answer i q a => Function.update s.hists i ((s.hists i).modifyHead fun h => ⟨q, a⟩ :: h)
      | _ => s.hists := by
  funext j
  cases hm with
  | start i b hi =>
    by_cases hj : j = i
    · subst hj
      simp [State.hists, hi, Task.hists]
    · simp [State.hists, hj]
  | answer i b h q k a shared hi hh =>
    by_cases hj : j = i
    · subst hj
      simp [State.hists, hi, Task.hists]
    · simp [State.hists, hj]
  | finish i b h p r t hi hp ht =>
    by_cases hj : j = i
    · subst hj
      rcases ht with rfl | rfl
      · simp [State.hists, close, hi, Task.hists]
      · simp [State.hists, close, hi, Task.hists]
    · simp [State.hists, close, hj, Ne.symm hj]
  | world w => rfl

omit [DecidableEq Q] in
private theorem flatten_update (r : ι → List (Hist A)) (i : ι) (hs : List (Hist A)) :
    (fun j => (Function.update r i hs j).flatten) = Function.update (fun j => (r j).flatten) i hs.flatten :=
  funext (Function.apply_update (fun _ => List.flatten) r i hs)

omit [DecidableEq Q] in
/-- Only answers are recorded. -/
theorem record_of_moves (hm : M.Moves s e s') :
    s'.record = match e with
      | .answer i q a => Function.update s.record i (⟨q, a⟩ :: s.record i)
      | _ => s.record := by
  have hrecord : s'.record = fun j => (s'.hists j).flatten := rfl
  rw [hrecord, hists_of_moves hm]
  cases hm with
  | start i b hi =>
    refine (flatten_update _ _ _).trans ?_
    rw [List.flatten_cons, List.nil_append]
    exact Function.update_eq_self i s.record
  | answer i b h q k a shared hi hh =>
    have hcons := State.hists_of_running hi
    refine (flatten_update _ _ _).trans ?_
    rw [hcons, List.modifyHead_cons, List.flatten_cons, List.cons_append, ← List.flatten_cons, ← hcons]
    rfl
  | finish i b h p r t hi hp ht => rfl
  | world w => rfl

section Update

variable {r : ι → Hist A} {i j : ι} {x y : Sigma A}

omit [DecidableEq Q]

theorem mem_update_cons : y ∈ Function.update r i (x :: r i) j ↔ (j = i ∧ y = x) ∨ y ∈ r j := by
  by_cases hj : j = i
  · subst hj
    simp
  · simp [hj]

theorem mem_update_cons_of_mem (h : y ∈ r j) : y ∈ Function.update r i (x :: r i) j := by
  rw [mem_update_cons]
  exact Or.inr h

theorem suffix_update_cons {past : Hist A} (h : past <:+ r j) : past <:+ Function.update r i (x :: r i) j := by
  by_cases hj : j = i
  · subst hj
    rw [Function.update_self]
    exact h.trans (List.suffix_cons x _)
  · rwa [Function.update_of_ne hj]

end Update

omit [DecidableEq Q] in
/-- What holds of every history that agrees with a specification holds of all histories of a task. -/
theorem Spec.Holds.hists {S : Spec ι σ B A ε} (hs : S.Holds s) {i : ι} {P : Hist A → Prop}
    (hP : ∀ b shared h, S.loc i b shared h → P h) {h : Hist A} (hh : h ∈ s.hists i) : P h := by
  rcases List.mem_append.1 hh with hh | hh
  · cases ht : s.tasks i with
    | running b h' p =>
      rw [ht] at hh
      obtain rfl := List.mem_singleton.1 hh
      exact hP b s.shared h (hs.running i b h p ht).2
    | idle =>
      rw [ht] at hh
      cases hh
    | stopped =>
      rw [ht] at hh
      cases hh
  · obtain ⟨x, hx, rfl⟩ := List.mem_map.1 hh
    obtain ⟨hmem, hi⟩ := List.mem_filter.1 hx
    obtain rfl := of_decide_eq_true hi
    exact hP x.input x.shared x.hist (hs.ended x hmem).2

/-- A property of the shared state and the histories of all bodies holds after every run if it is kept by the start of a
body and by all answers to questions that a sound specification allows after the history of the same body. -/
theorem Spec.Sound.hists_invariant {S : Spec ι σ B A ε} {C : State ι σ B A ε → Event ι B W A → Prop}
    (hS : S.Sound M C) {J : σ → (ι → List (Hist A)) → Prop} {shared : σ} (hinit : S.inv shared)
    (hempty : J shared fun _ => []) (hstart : ∀ i s r, J s r → J s (Function.update r i ([] :: r i)))
    (hanswer : ∀ i b h hs q a s s' r, S.asked i b h q → r i = h :: hs → M.handle s q a = some s' → J s r →
      J s' (Function.update r i ((⟨q, a⟩ :: h) :: hs)))
    (hworld : ∀ s w r, J s r → J (M.world s w) r) (h : Reaches M.step C (State.init shared) s) :
    J s.shared s.hists := by
  refine (h.invariant (I := fun s => S.Holds s ∧ J s.shared s.hists) ⟨Spec.holds_init hinit, hempty⟩ ?_).2
  rintro s e s' ⟨hs, hJ⟩ hc hstep
  have hm := moves_of_step hstep
  refine ⟨hs.of_moves hS hc hm, ?_⟩
  rw [hists_of_moves hm]
  cases hm with
  | start i b hi => exact hstart i _ _ hJ
  | answer i b h q k a shared hi hh =>
    have hcons := State.hists_of_running hi
    simp only [hcons, List.modifyHead_cons]
    exact hanswer i b h _ q a _ _ _ (hs.running i b h _ hi).1.1 hcons hh hJ
  | finish i b h p r t hi hp ht => exact hJ
  | world w => exact hworld _ w _ hJ

theorem Spec.Sound.record_invariant {S : Spec ι σ B A ε} {C : State ι σ B A ε → Event ι B W A → Prop}
    (hS : S.Sound M C) {J : σ → (ι → Hist A) → Prop} {shared : σ} (hinit : S.inv shared)
    (hempty : J shared fun _ => [])
    (hanswer : ∀ i b h q a s s' r, S.asked i b h q → M.handle s q a = some s' → J s r →
      J s' (Function.update r i (⟨q, a⟩ :: r i)))
    (hworld : ∀ s w r, J s r → J (M.world s w) r) (h : Reaches M.step C (State.init shared) s) :
    J s.shared s.record := by
  refine hS.hists_invariant (J := fun s r => J s fun i => (r i).flatten) hinit hempty ?_ ?_ ?_ h
  · intro i s r hJ
    rw [flatten_update, List.flatten_cons, List.nil_append, Function.update_eq_self i fun j => (r j).flatten]
    exact hJ
  · intro i b h hs q a s s' r hasked hr hh hJ
    have := hanswer i b h q a s s' _ hasked hh hJ
    rw [hr] at this
    rw [flatten_update]
    exact this
  · exact fun s w r hJ => hworld s w _ hJ

/-- What the condition on a run says of single answers holds of all answers in the records. -/
theorem forall_mem_record {P : ι → (q : Q) → A q → Prop} {C : State ι σ B A ε → Event ι B W A → Prop}
    (hC : ∀ s i q a, C s (.answer i q a) → P i q a) {shared : σ} (h : Reaches M.step C (State.init shared) s) :
    ∀ i, ∀ x ∈ s.record i, P i x.1 x.2 := by
  refine h.invariant (I := fun s => ∀ i, ∀ x ∈ s.record i, P i x.1 x.2) ?_ ?_
  · intro i x hx
    cases hx
  · intro s e s' ih hc hstep i x hx
    have hm := moves_of_step hstep
    rw [record_of_moves hm] at hx
    cases hm with
    | answer j b h q k a shared hi hh =>
      rcases mem_update_cons.1 hx with ⟨rfl, rfl⟩ | hx
      · exact hC s i q a hc
      · exact ih i x hx
    | _ => exact ih i x hx

/-! ### One body alone -/

section Alone

variable (stop : Q → Bool) (reply : σ → (q : Q) → A q × σ)

variable (M) in
/-- Task `i` starts its body and runs it alone. -/
def launch (s : State ι σ B A ε) (i : ι) (b : B) : State ι σ B A ε :=
  let r := Prog.alone stop reply s.shared [] (M.body i b)
  { s with shared := r.1, tasks := Function.update s.tasks i (.running b r.2.1 r.2.2) }

variable (M) in
/-- Task `i` runs its body alone from start to end. -/
def perform (s : State ι σ B A ε) (i : ι) (b : B) : State ι σ B A ε :=
  (M.step (M.launch (fun _ => false) reply s i b) (.finish i)).getD (M.launch (fun _ => false) reply s i b)

variable {stop reply} {i j : ι} {b : B}

omit [DecidableEq Q] in
theorem launch_tasks_of_ne (h : j ≠ i) : (M.launch stop reply s i b).tasks j = s.tasks j :=
  Function.update_of_ne h _ _

theorem perform_tasks_of_ne (h : j ≠ i) : (M.perform reply s i b).tasks j = s.tasks j := by
  unfold perform
  cases hf : M.step (M.launch (fun _ => false) reply s i b) (.finish i) with
  | none => exact launch_tasks_of_ne h
  | some s' =>
    cases moves_of_step hf with
    | finish i b h' p r t hi hp ht =>
      simp only [Option.getD_some, close, Function.update_of_ne h]
      exact launch_tasks_of_ne h

theorem perform_record_of_ne (h : j ≠ i) : (M.perform reply s i b).record j = s.record j := by
  have hlaunch : (M.launch (fun _ => false) reply s i b).record j = s.record j := by
    rw [State.record, State.hists, launch_tasks_of_ne h]
    rfl
  unfold perform
  cases hf : M.step (M.launch (fun _ => false) reply s i b) (.finish i) with
  | none => exact hlaunch
  | some s' =>
    rw [Option.getD_some, record_of_moves (moves_of_step hf)]
    exact hlaunch

section Ends

variable {shared : σ} {h : Hist A}

theorem perform_of_ret (hp : Prog.alone (fun _ => false) reply s.shared [] (M.body i b) = (shared, h, .ret ())) :
    (M.perform reply s i b).shared = shared ∧ (M.perform reply s i b).tasks i = .idle := by
  simp [perform, launch, step, close, hp]

/-- An error ends a task that does not survive it. -/
theorem perform_of_throw {e : ε} (hi : M.survives i = false)
    (hp : Prog.alone (fun _ => false) reply s.shared [] (M.body i b) = (shared, h, .throw e)) :
    (M.perform reply s i b).shared = shared ∧ (M.perform reply s i b).tasks i = .stopped := by
  simp [perform, launch, step, close, hp, hi]

/-- A body that came to its end leaves the task idle, unless an error ends it, and its history in the record. -/
theorem perform_of_ended (hi : s.tasks i = .idle) {p : Prog A ε Unit} {shared : σ} {h : Hist A}
    (hp : Prog.alone (fun _ => false) reply s.shared [] (M.body i b) = (shared, h, p))
    (hended : p = .ret () ∨ (∃ e, p = .throw e) ∧ M.survives i = true) :
    (M.perform reply s i b).shared = shared ∧ (M.perform reply s i b).tasks i = .idle ∧
      (M.perform reply s i b).record i = h ++ s.record i := by
  rcases hended with rfl | ⟨⟨e, rfl⟩, hs⟩
  · simp [perform, launch, step, close, hp, State.record, State.hists, Task.hists, hi]
  · simp [perform, launch, step, close, hp, hs, State.record, State.hists, Task.hists, hi]

end Ends

variable {C : State ι σ B A ε → Event ι B W A → Prop}

section Asked

variable {shared : σ} {J : Hist A → σ → Prop} {Ψ : Hist A → Q → Prop}
  (hreply : ∀ s h q, J h s → Ψ h q →
    M.handle s q (reply s q).1 = some (reply s q).2 ∧ J (⟨q, (reply s q).1⟩ :: h) (reply s q).2)
  (hanswer : ∀ s h q k, J h s.shared → Ψ h q → s.tasks i = .running b h (.ask q k) →
    C s (.answer i q (reply s.shared q).1))

include hreply hanswer

private theorem reaches_alone {s₀ : State ι σ B A ε} {h : Hist A} {p : Prog A ε Unit}
    (hp : Prog.wp (fun q a => ∃ s, a = (reply s q).1) Ψ h p fun _ _ => True) (hJ : J h shared)
    (hr : Reaches M.step C s₀ { s with shared := shared, tasks := Function.update s.tasks i (.running b h p) }) :
    Reaches M.step C s₀
      { s with
        shared := (Prog.alone stop reply shared h p).1
        tasks := Function.update s.tasks i
          (.running b (Prog.alone stop reply shared h p).2.1 (Prog.alone stop reply shared h p).2.2) } := by
  induction p generalizing shared h with
  | ret a => exact hr
  | throw e => exact hr
  | ask q k ih =>
    simp only [Prog.alone]
    split
    · exact hr
    · obtain ⟨hhandle, hJ'⟩ := hreply shared h q hJ hp.1
      refine ih (reply shared q).1 (hp.2 _ ⟨shared, rfl⟩) hJ' (hr.tail (e := .answer i q (reply shared q).1) ?_ ?_)
      · exact hanswer _ h q k hJ hp.1 (Function.update_self i _ s.tasks)
      · simp only [step, Function.update_self, ↓reduceDIte, hhandle, Option.map_some, Function.update_idem]

/-- Running alone is a run, if the answers are possible and meet the condition as long as `J` holds, for all questions
that the body asks of such answers. -/
theorem reaches_launch_of_wp
    (hbody : Prog.wp (fun q a => ∃ s, a = (reply s q).1) Ψ [] (M.body i b) fun _ _ => True) (hJ : J [] s.shared)
    (hi : s.tasks i = .idle) (hstart : C s (.start i b)) : Reaches M.step C s (M.launch stop reply s i b) := by
  refine reaches_alone hreply hanswer hbody hJ (.tail .refl hstart ?_)
  simp only [step, hi]

theorem reaches_perform_of_wp
    (hbody : Prog.wp (fun q a => ∃ s, a = (reply s q).1) Ψ [] (M.body i b) fun _ _ => True) (hJ : J [] s.shared)
    (hi : s.tasks i = .idle) (hstart : C s (.start i b)) (hfinish : ∀ s, C s (.finish i)) :
    Reaches M.step C s (M.perform reply s i b) := by
  have hb : Reaches M.step C s (M.launch (fun _ => false) reply s i b) :=
    reaches_launch_of_wp hreply hanswer hbody hJ hi hstart
  unfold perform
  cases hf : M.step (M.launch (fun _ => false) reply s i b) (.finish i) with
  | none => exact hb
  | some s' => exact hb.tail (hfinish _) hf

end Asked

variable {J : σ → Prop} (hreply : ∀ s q, J s → M.handle s q (reply s q).1 = some (reply s q).2 ∧ J (reply s q).2)
  (hanswer : ∀ s h q k, J s.shared → s.tasks i = .running b h (.ask q k) →
    C s (.answer i q (reply s.shared q).1))

include hreply hanswer

/-- Running alone is a run, if the answers are possible and meet the condition as long as `J` holds. -/
theorem reaches_launch (hJ : J s.shared) (hi : s.tasks i = .idle) (hstart : C s (.start i b)) :
    Reaches M.step C s (M.launch stop reply s i b) :=
  reaches_launch_of_wp (J := fun _ => J) (fun s _ q hJ _ => hreply s q hJ)
    (fun s h q k hJ _ hi => hanswer s h q k hJ hi) Prog.wp_trivial hJ hi hstart

theorem reaches_perform (hJ : J s.shared) (hi : s.tasks i = .idle) (hstart : C s (.start i b))
    (hfinish : ∀ s, C s (.finish i)) : Reaches M.step C s (M.perform reply s i b) :=
  reaches_perform_of_wp (J := fun _ => J) (fun s _ q hJ _ => hreply s q hJ)
    (fun s h q k hJ _ hi => hanswer s h q k hJ hi) Prog.wp_trivial hJ hi hstart hfinish

end Alone

/-! ### Many bodies of one task -/

section Consume

variable (M) in
/-- Task `i` takes inputs one after the other, each alone and with replies of its own, until none is left or the task
has stopped. -/
def consume (i : ι) : State ι σ B A ε → List (B × (σ → (q : Q) → A q × σ)) → State ι σ B A ε
  | s, [] => s
  | s, x :: xs =>
    match s.tasks i with
    | .idle => consume i (M.perform x.2 s i x.1) xs
    | _ => s

variable {i : ι} {x : B × (σ → (q : Q) → A q × σ)} {xs ys : List (B × (σ → (q : Q) → A q × σ))}

theorem consume_cons_of_idle (hi : s.tasks i = .idle) :
    M.consume i s (x :: xs) = M.consume i (M.perform x.2 s i x.1) xs := by
  simp only [consume, hi]

theorem consume_of_stopped (hi : s.tasks i = .stopped) : M.consume i s xs = s := by
  cases xs with
  | nil => rfl
  | cons x xs => simp only [consume, hi]

theorem consume_append : M.consume i s (xs ++ ys) = M.consume i (M.consume i s xs) ys := by
  induction xs generalizing s with
  | nil => rfl
  | cons x xs ih =>
    cases hi : s.tasks i with
    | idle => rw [List.cons_append, consume_cons_of_idle hi, consume_cons_of_idle hi, ih]
    | running b h p =>
      simp only [List.cons_append, consume, hi]
      cases ys with
      | nil => rfl
      | cons y ys => simp only [consume, hi]
    | stopped => rw [consume_of_stopped hi, consume_of_stopped hi, consume_of_stopped hi]

/-- Taking inputs is a run, if the replies are possible. -/
theorem reachable_consume (hreply : ∀ x ∈ xs, ∀ s q, M.handle s q (x.2 s q).1 = some (x.2 s q).2) :
    Reachable M.step s (M.consume i s xs) := by
  induction xs generalizing s with
  | nil => exact .refl
  | cons x xs ih =>
    cases hi : s.tasks i with
    | idle =>
      rw [consume_cons_of_idle hi]
      have hx : Reachable M.step s (M.perform x.2 s i x.1) :=
        reaches_perform (J := fun _ => True) (fun s q _ => ⟨hreply x List.mem_cons_self s q, trivial⟩)
          (fun _ _ _ _ _ _ => trivial) trivial hi trivial fun _ => trivial
      exact hx.trans (ih fun y hy => hreply y (List.mem_cons_of_mem _ hy))
    | running b h p =>
      simp only [consume, hi]
      exact .refl
    | stopped =>
      rw [consume_of_stopped hi]
      exact .refl

end Consume

end Machine
