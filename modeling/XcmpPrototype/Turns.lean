import XcmpPrototype.Interaction

/-!
# Loops around the bodies of a machine

In a machine a task goes through one body after the other.  A program that is one long loop asks questions of its own
between these bodies, decides when to go through the next one and which errors to go on after, and carries values from
one turn to the next.  `Tracks` says that a loop consists of whole bodies and of questions in between, and
`Machine.simulates` that then every state that the loops reach is, but for the questions in between, one that the
machine reaches: the same shared state, the same questions and answers inside bodies.
-/

namespace Prog

variable {Q O : Type} {A : Q → Type} {A' : O → Type} {ε α β B : Type}

/-- Answers to the questions of a body, or to those around it. -/
@[reducible] def Around (A : Q → Type) (A' : O → Type) : Q ⊕ O → Type
  | .inl q => A q
  | .inr o => A' o

/-- A program as a part of a loop. -/
def turn : Prog A ε α → Prog (Around A A') ε α
  | ret a => ret a
  | throw e => throw e
  | ask q k => ask (.inl q) fun a => turn (k a)

/-- The result of a program, when its errors are `caught`; all others end the whole program. -/
def attempt (caught : ε → Bool) : Prog A ε α → Prog A ε (Except ε α)
  | ret a => ret (.ok a)
  | throw e => if caught e then ret (.error e) else throw e
  | ask q k => ask q fun a => attempt caught (k a)

section Rules

variable {Φ : (x : Q ⊕ O) → Around A A' x → Prop} {Ψ : Hist (Around A A') → Q ⊕ O → Prop}

/-- A part of a loop adds only questions inside bodies to the history. -/
theorem wp_turn {R : Except ε α → Prop} {h₀ : Hist A} {p : Prog A ε α}
    (hp : wp (fun _ _ => True) (fun _ _ => True) h₀ p fun _ r => R r) (hasked : ∀ h q, Ψ h (.inl q))
    {h : Hist (Around A A')} {post : Hist (Around A A') → Except ε α → Prop}
    (hpost : ∀ new r, (∀ x ∈ new, x.1.isLeft = true) → R r → post (new ++ h) r) : wp Φ Ψ h (turn p) post := by
  induction p generalizing h h₀ with
  | ret a => exact hpost [] _ (by simp) hp
  | throw e => exact hpost [] _ (by simp) hp
  | ask q k ih =>
    refine ⟨hasked h q, fun a _ => ih a (hp.2 a trivial) fun new r hnew hr => ?_⟩
    have hpost' := hpost (new ++ [⟨.inl q, a⟩]) r ?_ hr
    · rwa [List.append_assoc, List.singleton_append] at hpost'
    · intro x hx
      rcases List.mem_append.1 hx with hx | hx
      · exact hnew x hx
      · rw [List.mem_singleton.1 hx]
        rfl

/-- What has to be shown of a program whose errors are values, in terms of the program. -/
def onAttempt (caught : ε → Bool) (post : Hist A → Except ε (Except ε α) → Prop) : Hist A → Except ε α → Prop
  | h, .ok a => post h (.ok (.ok a))
  | h, .error e => if caught e then post h (.ok (.error e)) else post h (.error e)

theorem wp_attempt {Φ : (q : Q) → A q → Prop} {Ψ : Hist A → Q → Prop} {h : Hist A} {caught : ε → Bool}
    {p : Prog A ε α} {post : Hist A → Except ε (Except ε α) → Prop} :
    wp Φ Ψ h (p.attempt caught) post ↔ wp Φ Ψ h p (onAttempt caught post) := by
  induction p generalizing h with
  | ret a => rfl
  | throw e =>
    rw [attempt, wp, onAttempt]
    split <;> rfl
  | ask q k ih => exact and_congr Iff.rfl (forall_congr' fun a => imp_congr Iff.rfl (ih a))

end Rules

/-- The program asks questions around bodies, and goes through whole bodies in between.  It may be inside a body with an
input in `B`, of which a part is left.  After an error of a body it goes on only if the task `survives`. -/
inductive Tracks (body : B → Prog A ε Unit) (survives : Bool) :
    Option (B × Prog A ε Unit) → Prog (Around A A') ε α → Prop
  | ret (a : α) : Tracks body survives none (.ret a)
  | throw (e : ε) : Tracks body survives none (.throw e)
  | around (o : O) (k : A' o → Prog (Around A A') ε α) :
      (∀ a, Tracks body survives none (k a)) → Tracks body survives none (.ask (.inr o) k)
  | start (b : B) (p : Prog (Around A A') ε α) :
      Tracks body survives (some (b, body b)) p → Tracks body survives none p
  | inside (b : B) (q : Q) (k₀ : A q → Prog A ε Unit) (k : A q → Prog (Around A A') ε α) :
      (∀ a, Tracks body survives (some (b, k₀ a)) (k a)) →
      Tracks body survives (some (b, .ask q k₀)) (.ask (.inl q) k)
  | finish (b : B) (p : Prog (Around A A') ε α) :
      Tracks body survives none p → Tracks body survives (some (b, .ret ())) p
  | caught (b : B) (e : ε) (p : Prog (Around A A') ε α) :
      survives = true → Tracks body survives none p → Tracks body survives (some (b, .throw e)) p
  | uncaught (b : B) (e : ε) : Tracks body survives (some (b, .throw e)) (.throw e)

namespace Tracks

variable {body : B → Prog A ε Unit} {survives : Bool} {left : Option (B × Prog A ε Unit)}

theorem bind {p : Prog (Around A A') ε α} {f : α → Prog (Around A A') ε β} (hp : Tracks body survives left p)
    (hf : ∀ a, Tracks body survives none (f a)) : Tracks body survives left (p >>= f) := by
  induction hp with
  | ret a => exact hf a
  | throw e => exact .throw e
  | around o k _ ih => exact .around o _ ih
  | start b p _ ih => exact .start b _ ih
  | inside b q k₀ k _ ih => exact .inside b q k₀ _ ih
  | finish b p _ ih => exact .finish b _ ih
  | caught b e p hs _ ih => exact .caught b e _ hs ih
  | uncaught b e => exact .uncaught b e

theorem query (o : O) : Tracks body survives none (Prog.query (Sum.inr o) : Prog (Around A A') ε (A' o)) :=
  .around o _ fun a => .ret a

theorem ofOption (e : ε) (o : Option α) : Tracks body survives none (Prog.ofOption e o : Prog (Around A A') ε α) := by
  cases o with
  | none => exact .throw e
  | some a => exact .ret a

theorem attempt (c : ε → Bool) {p : Prog (Around A A') ε α} (hp : Tracks body survives left p)
    (hs : survives = true) : Tracks body survives left (p.attempt c) := by
  induction hp with
  | ret a => exact .ret _
  | throw e =>
    rw [Prog.attempt]
    split
    · exact .ret _
    · exact .throw e
  | around o k _ ih => exact .around o _ ih
  | start b p _ ih => exact .start b _ ih
  | inside b q k₀ k _ ih => exact .inside b q k₀ _ ih
  | finish b p _ ih => exact .finish b _ ih
  | caught b e p hs _ ih => exact .caught b e _ hs ih
  | uncaught b e =>
    rw [Prog.attempt]
    split
    · exact .caught b e _ hs (.ret _)
    · exact .uncaught b e

private theorem turn_left (b : B) (p : Prog A ε Unit) :
    Tracks body survives (some (b, p)) (p.turn : Prog (Around A A') ε Unit) := by
  induction p with
  | ret a => exact .finish b _ (.ret ())
  | throw e => exact .uncaught b e
  | ask q k ih => exact .inside b q k _ ih

/-- A whole body. -/
theorem turn (b : B) : Tracks body survives none ((body b).turn : Prog (Around A A') ε Unit) :=
  .start b _ (turn_left b (body b))

end Tracks

end Prog

namespace Machine

variable {ι σ B B' W Q O : Type} {A : Q → Type} {A' : O → Type} {ε : Type}

/-- The machine of loops around the bodies of a machine.  Questions in between do not touch the shared state, and what
ends a loop ends its task. -/
def around (M : Machine ι σ B W A ε) (loop : ι → B' → Prog (Prog.Around A A') ε Unit) :
    Machine ι σ B' W (Prog.Around A A') ε where
  body := loop
  handle s
    | .inl q, a => M.handle s q a
    | .inr _, _ => some s
  world := M.world
  survives _ := false

/-- A question inside a body, with its answer. -/
def insideBody : Sigma (Prog.Around A A') → Option (Sigma A)
  | ⟨.inl q, a⟩ => some ⟨q, a⟩
  | ⟨.inr _, _⟩ => none

@[simp] theorem filterMap_insideBody_inl {q : Q} {a : A q} {h : Hist (Prog.Around A A')} :
    List.filterMap insideBody (⟨.inl q, a⟩ :: h) = ⟨q, a⟩ :: h.filterMap insideBody := rfl

@[simp] theorem filterMap_insideBody_inr {o : O} {a : A' o} {h : Hist (Prog.Around A A')} :
    List.filterMap insideBody (⟨.inr o, a⟩ :: h) = h.filterMap (insideBody (A := A)) := rfl

variable [DecidableEq ι] [DecidableEq Q] [DecidableEq O]

/-- The task is in a body of which `left` is left. -/
def Left (t : State ι σ B A ε) (i : ι) : Option (B × Prog A ε Unit) → Prop
  | none => t.tasks i = .idle
  | some x => ∃ h, t.tasks i = .running x.1 h x.2

/-- A task of the machine that is where the task of the loops is. -/
def TaskSim (M : Machine ι σ B W A ε) (t : State ι σ B A ε) (i : ι) : Task B' (Prog.Around A A') ε → Prop
  | .idle => t.tasks i = .idle
  | .running _ _ p => ∃ left, Prog.Tracks (M.body i) (M.survives i) left p ∧ Left t i left
  | .stopped => True

/-- A state of the loops and a state of the machine that agree on everything that happens inside bodies. -/
structure Sim (M : Machine ι σ B W A ε) (s : State ι σ B' (Prog.Around A A') ε) (t : State ι σ B A ε) : Prop where
  shared : t.shared = s.shared
  record : ∀ i, (s.record i).filterMap insideBody = t.record i
  tasks : ∀ i, TaskSim M t i (s.tasks i)

/-- The condition on a run of the loops under which the corresponding run of the machine meets `C`. -/
def Lifts (M : Machine ι σ B W A ε) (C : State ι σ B A ε → Event ι B W A → Prop)
    (s : State ι σ B' (Prog.Around A A') ε) : Event ι B' W (Prog.Around A A') → Prop
  | .answer i (.inl q) a => ∀ t, Sim M s t → C t (.answer i q a)
  | .world w => ∀ t, Sim M s t → C t (.world w)
  | _ => True

variable {M : Machine ι σ B W A ε} {C : State ι σ B A ε → Event ι B W A → Prop}
  (hstart : ∀ t i b, C t (.start i b)) (hfinish : ∀ t i, C t (.finish i))

/-! ### Steps that the loops do not show -/

/-- Task `i` has started or finished bodies, without any question. -/
structure Quiet (M : Machine ι σ B W A ε) (C : State ι σ B A ε → Event ι B W A → Prop) (i : ι)
    (t t' : State ι σ B A ε) : Prop where
  reaches : Reaches M.step C t t'
  shared : t'.shared = t.shared
  record : t'.record = t.record
  others : ∀ j, j ≠ i → t'.tasks j = t.tasks j

omit [DecidableEq O] in
private theorem Quiet.refl {i : ι} {t : State ι σ B A ε} : Quiet M C i t t := ⟨.refl, rfl, rfl, fun _ _ => rfl⟩

omit [DecidableEq O] in
private theorem Quiet.trans {i : ι} {t t' t'' : State ι σ B A ε} (h : Quiet M C i t t') (h' : Quiet M C i t' t'') :
    Quiet M C i t t'' :=
  ⟨h.reaches.trans h'.reaches, h'.shared.trans h.shared, h'.record.trans h.record,
    fun j hj => (h'.others j hj).trans (h.others j hj)⟩

/-- A task is at the next question of its loop. -/
def Ready (M : Machine ι σ B W A ε) (i : ι) (t : State ι σ B A ε) : Prog (Prog.Around A A') ε Unit → Prop
  | .ret _ => t.tasks i = .idle
  | .throw _ => True
  | .ask (.inl q) k => ∃ b h k₀, t.tasks i = .running b h (.ask q k₀) ∧
      ∀ a, Prog.Tracks (M.body i) (M.survives i) (some (b, k₀ a)) (k a)
  | .ask (.inr _) k => t.tasks i = .idle ∧ ∀ a, Prog.Tracks (M.body i) (M.survives i) none (k a)

section Quiet

include hstart

omit [DecidableEq O] in
private theorem quiet_start {i : ι} {t : State ι σ B A ε} (hi : t.tasks i = .idle) (b : B) :
    Quiet M C i t { t with tasks := Function.update t.tasks i (.running b [] (M.body i b)) } := by
  have hstep : M.step t (.start i b) =
      some { t with tasks := Function.update t.tasks i (.running b [] (M.body i b)) } := by
    simp only [step, hi]
  exact ⟨.tail .refl (hstart t i b) hstep, rfl, record_of_moves (moves_of_step hstep),
    fun j hj => Function.update_of_ne hj _ _⟩

omit hstart
include hfinish

omit [DecidableEq O] in
private theorem exists_quiet_finish {i : ι} {t : State ι σ B A ε} {b : B} {h : Hist A} {p : Prog A ε Unit}
    (hi : t.tasks i = .running b h p) (hp : p = .ret () ∨ (∃ e, p = .throw e) ∧ M.survives i = true) :
    ∃ t', Quiet M C i t t' ∧ t'.tasks i = .idle := by
  obtain ⟨r, hstep⟩ : ∃ r, M.step t (.finish i) = some (close t i b h r .idle) := by
    rcases hp with rfl | ⟨⟨e, rfl⟩, hs⟩
    · exact ⟨.ok (), by simp only [step, hi]⟩
    · exact ⟨.error e, by simp only [step, hi, hs, ↓reduceIte]⟩
  refine ⟨_, ⟨.tail .refl (hfinish t i) hstep, rfl, record_of_moves (moves_of_step hstep), ?_⟩, ?_⟩
  · intro j hj
    exact Function.update_of_ne hj _ _
  · exact Function.update_self i _ t.tasks

end Quiet

section Simulation

variable {s s' : State ι σ B' (Prog.Around A A') ε} {t t' : State ι σ B A ε} {i : ι}

section Ready

include hstart hfinish

omit [DecidableEq O] in
/-- From inside or outside a body the task gets to the next question of its loop by starting and finishing bodies. -/
private theorem exists_quiet_ready {left : Option (B × Prog A ε Unit)} {p : Prog (Prog.Around A A') ε Unit}
    (hp : Prog.Tracks (M.body i) (M.survives i) left p) (ht : Left t i left) :
    ∃ t', Quiet M C i t t' ∧ Ready M i t' p ∧
      ∃ left, Prog.Tracks (M.body i) (M.survives i) left p ∧ Left t' i left := by
  induction hp generalizing t with
  | ret a => exact ⟨t, .refl, ht, none, .ret a, ht⟩
  | throw e => exact ⟨t, .refl, trivial, none, .throw e, ht⟩
  | around o k hk _ => exact ⟨t, .refl, ⟨ht, hk⟩, none, .around o k hk, ht⟩
  | inside b q k₀ k hk _ =>
    obtain ⟨h, hrunning⟩ := ht
    exact ⟨t, .refl, ⟨b, h, k₀, hrunning, hk⟩, _, .inside b q k₀ k hk, h, hrunning⟩
  | uncaught b e => exact ⟨t, .refl, trivial, _, .uncaught b e, ht⟩
  | start b p _ ih =>
    have hquiet := quiet_start (M := M) hstart ht b
    obtain ⟨t', hquiet', hready⟩ := ih (t := { t with tasks := Function.update t.tasks i (.running b [] (M.body i b)) })
      ⟨[], Function.update_self i _ t.tasks⟩
    exact ⟨t', hquiet.trans hquiet', hready⟩
  | finish b p _ ih =>
    obtain ⟨h, ht⟩ := ht
    obtain ⟨t₁, hquiet, hidle⟩ := exists_quiet_finish hfinish ht (Or.inl rfl)
    obtain ⟨t', hquiet', hready⟩ := ih hidle
    exact ⟨t', hquiet.trans hquiet', hready⟩
  | caught b e p hs _ ih =>
    obtain ⟨h, ht⟩ := ht
    obtain ⟨t₁, hquiet, hidle⟩ := exists_quiet_finish hfinish ht (Or.inr ⟨⟨e, rfl⟩, hs⟩)
    obtain ⟨t', hquiet', hready⟩ := ih hidle
    exact ⟨t', hquiet.trans hquiet', hready⟩

end Ready

omit [DecidableEq ι] [DecidableEq Q] [DecidableEq O] in
private theorem TaskSim.congr {T : Task B' (Prog.Around A A') ε} (h : TaskSim M t i T) (ht : t'.tasks i = t.tasks i) :
    TaskSim M t' i T := by
  cases T with
  | idle => exact ht.trans h
  | stopped => trivial
  | running b hist p =>
    obtain ⟨left, hp, hleft⟩ := h
    refine ⟨left, hp, ?_⟩
    cases left with
    | none => exact ht.trans hleft
    | some x => exact hleft.imp fun _ hx => ht.trans hx

omit [DecidableEq Q] [DecidableEq O] in
/-- Only task `i` has moved. -/
private theorem Sim.of_others (h : Sim M s t) (hshared : t'.shared = s'.shared)
    (hrecord : ∀ j, (s'.record j).filterMap insideBody = t'.record j) (hs : ∀ j, j ≠ i → s'.tasks j = s.tasks j)
    (ht : ∀ j, j ≠ i → t'.tasks j = t.tasks j) (hi : TaskSim M t' i (s'.tasks i)) : Sim M s' t' := by
  refine ⟨hshared, hrecord, fun j => ?_⟩
  by_cases hj : j = i
  · subst hj
    exact hi
  · rw [hs j hj]
    exact (h.tasks j).congr (ht j hj)

section Steps

variable {b : B'} {hist : Hist (Prog.Around A A')} {p : Prog (Prog.Around A A') ε Unit}

include hstart hfinish in
omit [DecidableEq O] in
/-- The machine can catch up with a task of the loops. -/
theorem Sim.exists_ready (h : Sim M s t) (hi : s.tasks i = .running b hist p) :
    ∃ t', Reaches M.step C t t' ∧ Sim M s t' ∧ Ready M i t' p := by
  have htask := h.tasks i
  rw [hi] at htask
  obtain ⟨left, hp, hleft⟩ := htask
  obtain ⟨t', hquiet, hready, hleft'⟩ := exists_quiet_ready hstart hfinish hp hleft
  refine ⟨t', hquiet.reaches, ?_, hready⟩
  refine h.of_others (i := i) (hquiet.shared.trans h.shared) ?_ (fun _ _ => rfl) hquiet.others ?_
  · rw [hquiet.record]
    exact h.record
  · rw [hi]
    exact hleft'

variable (loop : ι → B' → Prog (Prog.Around A A') ε Unit)

include loop

omit [DecidableEq Q] [DecidableEq O] in
private theorem Sim.start (h : Sim M s t) (hloop : Prog.Tracks (M.body i) (M.survives i) none (loop i b))
    (hi : s.tasks i = .idle) :
    Sim M { s with tasks := Function.update s.tasks i (.running b [] (loop i b)) } t := by
  have hrecord : ({ s with tasks := Function.update s.tasks i (.running b [] (loop i b)) } :
      State ι σ B' (Prog.Around A A') ε).record = s.record := record_of_moves (M := M.around loop) (.start i b hi)
  have hidle := h.tasks i
  rw [hi] at hidle
  refine h.of_others (i := i) h.shared ?_ (fun j hj => Function.update_of_ne hj _ _) (fun _ _ => rfl) ?_
  · rw [hrecord]
    exact h.record
  · show TaskSim M t i (Function.update s.tasks i _ i)
    rw [Function.update_self]
    exact ⟨none, hloop, hidle⟩

omit [DecidableEq O] in
/-- A question inside a body. -/
private theorem Sim.answer_inside (h : Sim M s t) {q : Q} {k : A q → Prog (Prog.Around A A') ε Unit} {a : A q}
    {shared : σ} (hi : s.tasks i = .running b hist (.ask (.inl q) k)) (hready : Ready M i t (.ask (.inl q) k))
    (hh : M.handle s.shared q a = some shared) :
    ∃ t', M.step t (.answer i q a) = some t' ∧
      Sim M { s with
        shared := shared, tasks := Function.update s.tasks i (.running b (⟨.inl q, a⟩ :: hist) (k a)) } t' := by
  obtain ⟨b₀, h₀, k₀, ht, hk⟩ := hready
  have hstep : M.step t (.answer i q a) = some { t with
      shared := shared, tasks := Function.update t.tasks i (.running b₀ (⟨q, a⟩ :: h₀) (k₀ a)) } := by
    simp only [step, ht, ↓reduceDIte, h.shared, hh, Option.map_some]
  have hrecord : _ = Function.update s.record i (⟨.inl q, a⟩ :: s.record i) :=
    record_of_moves (M := M.around loop) (.answer i b hist (.inl q) k a shared hi hh)
  have hrecord' : _ = Function.update t.record i (⟨q, a⟩ :: t.record i) := record_of_moves (moves_of_step hstep)
  refine ⟨_, hstep, h.of_others (i := i) rfl ?_ (fun j hj => Function.update_of_ne hj _ _)
    (fun j hj => Function.update_of_ne hj _ _) ?_⟩
  · intro j
    rw [hrecord, hrecord']
    by_cases hj : j = i
    · subst hj
      rw [Function.update_self, Function.update_self, filterMap_insideBody_inl, h.record]
    · rw [Function.update_of_ne hj, Function.update_of_ne hj, h.record]
  · show TaskSim M _ i (Function.update s.tasks i _ i)
    rw [Function.update_self]
    exact ⟨_, hk a, ⟨q, a⟩ :: h₀, Function.update_self i _ t.tasks⟩

omit [DecidableEq Q] [DecidableEq O] in
/-- A question around bodies. -/
private theorem Sim.answer_around (h : Sim M s t) {o : O} {k : A' o → Prog (Prog.Around A A') ε Unit} {a : A' o}
    (hi : s.tasks i = .running b hist (.ask (.inr o) k)) (hready : Ready M i t (.ask (.inr o) k)) :
    Sim M { s with tasks := Function.update s.tasks i (.running b (⟨.inr o, a⟩ :: hist) (k a)) } t := by
  obtain ⟨ht, hk⟩ := hready
  have hrecord : _ = Function.update s.record i (⟨.inr o, a⟩ :: s.record i) :=
    record_of_moves (M := M.around loop) (.answer i b hist (.inr o) k a s.shared hi rfl)
  refine h.of_others (i := i) h.shared ?_ (fun j hj => Function.update_of_ne hj _ _) (fun _ _ => rfl) ?_
  · intro j
    rw [hrecord]
    by_cases hj : j = i
    · subst hj
      rw [Function.update_self, filterMap_insideBody_inr, h.record]
    · rw [Function.update_of_ne hj, h.record]
  · show TaskSim M t i (Function.update s.tasks i _ i)
    rw [Function.update_self]
    exact ⟨none, hk a, ht⟩

omit [DecidableEq Q] [DecidableEq O] in
/-- The end of a loop, which leaves the machine as it is. -/
private theorem Sim.finish (h : Sim M s t) {r : Except ε Unit} {T : Task B' (Prog.Around A A') ε}
    (hi : s.tasks i = .running b hist p) (hp : p = .ret () ∧ r = .ok () ∨ ∃ e, p = .throw e ∧ r = .error e)
    (hT : T = .idle ∨ T = .stopped) (hidle : T = .idle → t.tasks i = .idle) : Sim M (close s i b hist r T) t := by
  have hrecord : _ = s.record := record_of_moves (M := M.around loop) (.finish i b hist p r T hi hp hT)
  refine h.of_others (i := i) h.shared ?_ (fun j hj => Function.update_of_ne hj _ _) (fun _ _ => rfl) ?_
  · rw [hrecord]
    exact h.record
  · show TaskSim M t i (Function.update s.tasks i _ i)
    rw [Function.update_self]
    rcases hT with rfl | rfl
    · exact hidle rfl
    · trivial

end Steps

/-! ### Whole runs -/

variable {loop : ι → B' → Prog (Prog.Around A A') ε Unit}

include hstart hfinish

/-- A step of the loops is matched by steps of the machine. -/
private theorem Sim.step (hloop : ∀ i b, Prog.Tracks (M.body i) (M.survives i) none (loop i b)) (h : Sim M s t)
    {e : Event ι B' W (Prog.Around A A')} (hC : Lifts M C s e) (hs : (M.around loop).step s e = some s') :
    ∃ t', Reaches M.step C t t' ∧ Sim M s' t' := by
  cases e with
  | start i b =>
    cases moves_of_step hs with
    | start i b hi => exact ⟨t, .refl, h.start loop (hloop i b) hi⟩
  | answer i x a =>
    cases moves_of_step hs with
    | answer i b hist x k a shared hi hh =>
      obtain ⟨t', hreach, hsim, hready⟩ := h.exists_ready hstart hfinish hi
      cases x with
      | inl q =>
        obtain ⟨t'', hstep, hsim'⟩ := hsim.answer_inside loop hi hready hh
        exact ⟨t'', hreach.tail (hC t' hsim) hstep, hsim'⟩
      | inr o =>
        cases hh
        exact ⟨t', hreach, hsim.answer_around loop hi hready⟩
  | finish i =>
    simp only [Machine.step] at hs
    split at hs
    · rename_i b hist u hi
      cases hs
      obtain ⟨t', hreach, hsim, hready⟩ := h.exists_ready hstart hfinish hi
      exact ⟨t', hreach, hsim.finish loop hi (Or.inl ⟨rfl, rfl⟩) (Or.inl rfl) fun _ => hready⟩
    · rename_i b hist e hi
      cases hs
      exact ⟨t, .refl, h.finish loop hi (Or.inr ⟨e, rfl, rfl⟩) (Or.inr rfl) fun hret => by cases hret⟩
    · cases hs
  | world w =>
    cases moves_of_step hs with
    | world w =>
      refine ⟨{ t with shared := M.world t.shared w }, .tail .refl (hC t h) rfl, ?_⟩
      exact ⟨congrArg (M.world · w) h.shared, h.record, fun j => (h.tasks j).congr rfl⟩

/-- Every state that the loops reach is matched by one that the machine reaches. -/
theorem simulates (hloop : ∀ i b, Prog.Tracks (M.body i) (M.survives i) none (loop i b)) (shared : σ)
    (h : Reaches (M.around loop).step (Lifts M C) (State.init shared) s) :
    ∃ t, Reaches M.step C (State.init shared) t ∧ Sim M s t := by
  induction h with
  | refl => exact ⟨State.init shared, .refl, rfl, fun _ => rfl, fun _ => rfl⟩
  | tail _ hC hs ih =>
    obtain ⟨t, hreach, hsim⟩ := ih
    obtain ⟨t', hreach', hsim'⟩ := hsim.step hstart hfinish hloop hC hs
    exact ⟨t', hreach.trans hreach', hsim'⟩

end Simulation

end Machine
