import CrabMate.Lib.Run

/-! Programs over a signature of actions. A program has returned, or it performs an action and
goes on with the answer. The answer to an action and its effect on the state depend on a choice
of the environment; a list of choices determines a run. -/
inductive Prog (A : Type) (R : A → Type) (α : Type) where
  | ret (x : α)
  | act (a : A) (k : R a → Prog A R α)

namespace Prog

variable {A : Type} {R : A → Type} {α β γ ε : Type}

protected def bind : Prog A R α → (α → Prog A R β) → Prog A R β
  | ret x, f => f x
  | act a k, f => act a fun r => (k r).bind f

instance : Monad (Prog A R) where
  pure := ret
  bind := Prog.bind

theorem bind_ret (p : Prog A R α) : p.bind ret = p := by
  induction p with
  | ret x => rfl
  | act a k ih => exact congrArg (act a) (funext ih)

theorem bind_bind (p : Prog A R α) (f : α → Prog A R β) (g : β → Prog A R γ) :
    (p.bind f).bind g = p.bind fun x => (f x).bind g := by
  induction p with
  | ret x => rfl
  | act a k ih => exact congrArg (act a) (funext ih)

instance : LawfulMonad (Prog A R) :=
  LawfulMonad.mk' _ bind_ret (fun _ _ => rfl) bind_bind

def perform (a : A) : Prog A R (R a) := act a ret

/-- The program that is killed after `k` actions, unless it has returned. -/
def killedAfter : ℕ → Prog A R α → Prog A R (Option α)
  | _, ret x => ret (some x)
  | 0, act _ _ => ret none
  | k + 1, act a f => act a fun r => (f r).killedAfter k

section Runs

variable {S C : Type} [Inhabited C] (exec : (a : A) → S → C → R a × S)

def run : Prog A R α → List C → S → α × S
  | ret x, _, s => (x, s)
  | act a k, cs, s => (k (exec a s cs.headI).1).run cs.tail (exec a s cs.headI).2

/-- Every choice of the run is admissible in the state in which it is made. -/
def ChoicesOk (ok : (a : A) → S → C → Prop) : Prog A R α → List C → S → Prop
  | ret _, _, _ => True
  | act a k, cs, s => ok a s cs.headI ∧
      (k (exec a s cs.headI).1).ChoicesOk ok cs.tail (exec a s cs.headI).2

end Runs

/-- The surroundings of a program: what its actions do, which choices are considered, what others
may do to the state between two actions, and what each action has to keep. -/
structure Env (A : Type) (R : A → Type) (S : Type) (C : A → Type) where
  exec : (a : A) → S → C a → R a × S
  ok : (a : A) → S → C a → Prop := fun _ _ _ => True
  rely : S → S → Prop := Eq
  guar : (a : A) → S → R a × S → Prop := fun _ _ _ => True

section Logic

variable {S : Type} {C : A → Type} {env : Env A R S C}

/-- From `s`, whatever others do and whatever the environment chooses, every action keeps the
guarantee and the program returns only where `Q` holds. -/
def wp (env : Env A R S C) : Prog A R α → (α → S → Prop) → S → Prop
  | ret x, Q, s => Q x s
  | act a k, Q, s => ∀ s₀, env.rely s s₀ → ∀ c, env.ok a s₀ c →
      env.guar a s₀ (env.exec a s₀ c) ∧
        (k (env.exec a s₀ c).1).wp env Q (env.exec a s₀ c).2

@[simp] theorem wp_pure (x : α) (Q : α → S → Prop) (s : S) :
    (pure x : Prog A R α).wp env Q s ↔ Q x s := Iff.rfl

@[simp] theorem wp_bind (p : Prog A R α) (f : α → Prog A R β) (Q : β → S → Prop) (s : S) :
    (p >>= f).wp env Q s ↔ p.wp env (fun x => (f x).wp env Q) s := by
  induction p generalizing s with
  | ret x => rfl
  | act a k ih =>
    refine forall_congr' fun s₀ => forall_congr' fun _ => forall_congr' fun c =>
      forall_congr' fun _ => and_congr_right fun _ => ?_
    exact ih _ _

@[simp] theorem wp_map (p : Prog A R α) (f : α → β) (Q : β → S → Prop) (s : S) :
    (f <$> p).wp env Q s ↔ p.wp env (fun x => Q (f x)) s := by
  rw [map_eq_pure_bind, wp_bind]
  rfl

theorem wp_mono {p : Prog A R α} {Q Q' : α → S → Prop} {s : S} (h : p.wp env Q s)
    (hQ : ∀ x s', Q x s' → Q' x s') : p.wp env Q' s := by
  induction p generalizing s with
  | ret x => exact hQ x s h
  | act a k ih =>
    intro s₀ hs c hc
    obtain ⟨hg, hk⟩ := h s₀ hs c hc
    exact ⟨hg, ih _ hk⟩

/-- A loop over a list: `I` holds of what is left of the list and the state, `rel` between an
element and its result. -/
theorem wp_mapM (f : γ → Prog A R β) (I : List γ → S → Prop) (rel : γ → β → Prop) {xs : List γ}
    {s : S} (hs : I xs s)
    (hf : ∀ x rest s, I (x :: rest) s → (f x).wp env (fun y s' => I rest s' ∧ rel x y) s) :
    (xs.mapM f).wp env (fun ys s' => I [] s' ∧ List.Forall₂ rel xs ys) s := by
  induction xs generalizing s with
  | nil => simpa using hs
  | cons x xs ih =>
    rw [List.mapM_cons, wp_bind]
    refine wp_mono (hf x xs s hs) fun y s' hy => ?_
    rw [wp_bind]
    refine wp_mono (ih hy.1) fun ys s' hys => ?_
    exact ⟨hys.1, List.Forall₂.cons hy.2 hys.2⟩

/-- What the actions keep may be added to the result. -/
theorem wp_keep {p : Prog A R α} {Q : α → S → Prop} {K : S → S → Prop} {s : S}
    (hrefl : ∀ s, K s s) (htrans : ∀ s t u, K s t → K t u → K s u)
    (hrely : ∀ s t, env.rely s t → K s t)
    (hstep : ∀ a s c, env.ok a s c → env.guar a s (env.exec a s c) → K s (env.exec a s c).2)
    (h : p.wp env Q s) : p.wp env (fun x s' => Q x s' ∧ K s s') s := by
  induction p generalizing s with
  | ret x => exact ⟨h, hrefl s⟩
  | act a k ih =>
    intro s₀ hs c hc
    obtain ⟨hg, hk⟩ := h s₀ hs c hc
    refine ⟨hg, wp_mono (ih _ hk) fun x s' hx => ⟨hx.1, ?_⟩⟩
    exact htrans _ _ _ (hrely s s₀ hs) (htrans _ _ _ (hstep a s₀ c hc hg) hx.2)

/-- What every action keeps holds wherever the program is killed. -/
theorem wp_killedAfter {p : Prog A R α} {Q : α → S → Prop} {I : S → Prop} {s : S}
    (hrely : ∀ s s₀, env.rely s s₀ → I s → I s₀)
    (hkeep : ∀ a s c, env.ok a s c → env.guar a s (env.exec a s c) → I s → I (env.exec a s c).2)
    (h : p.wp env Q s) (hs : I s) (k : ℕ) :
    (p.killedAfter k).wp env (fun out s' => I s' ∧ ∀ x, out = some x → Q x s') s := by
  induction p generalizing s k with
  | ret x =>
    cases k <;> exact ⟨hs, fun y hy => Option.some.inj hy ▸ h⟩
  | act a f ih =>
    cases k with
    | zero => exact ⟨hs, nofun⟩
    | succ k =>
      intro s₀ hs₀ c hc
      obtain ⟨hg, hk⟩ := h s₀ hs₀ c hc
      exact ⟨hg, ih _ hk (hkeep a s₀ c hc hg (hrely s s₀ hs₀ hs)) k⟩

theorem wp_rely {p : Prog A R α} {Q : α → S → Prop} {s s' : S}
    (htrans : ∀ s t u, env.rely s t → env.rely t u → env.rely s u)
    (hQ : ∀ x s t, env.rely s t → Q x s → Q x t) (h : p.wp env Q s) (hs : env.rely s s') :
    p.wp env Q s' := by
  cases p with
  | ret x => exact hQ x s s' hs h
  | act a k => exact fun s₀ hs₀ => h s₀ (htrans s s' s₀ hs hs₀)

theorem wp_weaken {env' : Env A R S C} {p : Prog A R α} {Q : α → S → Prop} {s : S}
    (h : p.wp env Q s) (hexec : env'.exec = env.exec) (hrely : env'.rely = env.rely)
    (hok : ∀ a s c, env'.ok a s c → env.ok a s c)
    (hguar : ∀ a s out, env.guar a s out → env'.guar a s out) : p.wp env' Q s := by
  induction p generalizing s with
  | ret x => exact h
  | act a k ih =>
    intro s₀ hs c hc
    obtain ⟨hg, hk⟩ := h s₀ (hrely ▸ hs) c (hok a s₀ c hc)
    rw [hexec]
    exact ⟨hguar a s₀ _ hg, ih _ hk⟩

/-! Programs that may fail. -/

variable {Q : Except ε β → S → Prop}

@[simp] theorem wp_run_pure (x : β) (s : S) :
    (pure x : ExceptT ε (Prog A R) β).run.wp env Q s ↔ Q (.ok x) s := Iff.rfl

@[simp] theorem wp_run_lift (p : Prog A R β) (s : S) :
    (liftM p : ExceptT ε (Prog A R) β).run.wp env Q s ↔ p.wp env (fun x => Q (.ok x)) s :=
  wp_map p Except.ok Q s

@[simp] theorem wp_run_mk (p : Prog A R (Except ε β)) (s : S) :
    (ExceptT.mk p).run.wp env Q s ↔ p.wp env Q s := Iff.rfl

/-- What follows a failure is skipped. -/
def onOk (Q : α → S → Prop) (E : ε → S → Prop) : Except ε α → S → Prop
  | .ok x => Q x
  | .error e => E e

@[simp] theorem onOk_ok (Q : α → S → Prop) (E : ε → S → Prop) (x : α) :
    onOk Q E (.ok x) = Q x := rfl

@[simp] theorem onOk_error (Q : α → S → Prop) (E : ε → S → Prop) (e : ε) :
    onOk Q E (.error e) = E e := rfl

@[simp] theorem wp_run_bind (p : ExceptT ε (Prog A R) α) (f : α → ExceptT ε (Prog A R) β) (s : S) :
    (p >>= f).run.wp env Q s ↔
      p.run.wp env (onOk (fun x => (f x).run.wp env Q) fun e => Q (.error e)) s := by
  rw [ExceptT.run_bind, wp_bind]
  constructor <;> intro h <;> refine wp_mono h fun r s' hr => ?_ <;> cases r <;> exact hr

theorem wp_run_forM (f : γ → ExceptT ε (Prog A R) PUnit) (I : List γ → S → Prop)
    {E : ε → S → Prop} {xs : List γ} {s : S} (hs : I xs s)
    (hf : ∀ x rest s, I (x :: rest) s → (f x).run.wp env (onOk (fun _ => I rest) E) s) :
    (xs.forM f).run.wp env (onOk (fun _ => I []) E) s := by
  induction xs generalizing s with
  | nil => exact hs
  | cons x xs ih =>
    rw [List.forM, wp_run_bind]
    refine wp_mono (hf x xs s hs) fun r s' hr => ?_
    cases r with
    | ok u => exact ih hr
    | error e => exact hr

theorem wp_run_mapM (f : γ → ExceptT ε (Prog A R) β) (I : List γ → S → Prop)
    {E : ε → S → Prop} {xs : List γ} {s : S} (hs : I xs s)
    (hf : ∀ x rest s, I (x :: rest) s → (f x).run.wp env (onOk (fun _ => I rest) E) s) :
    (xs.mapM f).run.wp env (onOk (fun _ => I []) E) s := by
  induction xs generalizing s with
  | nil => exact hs
  | cons x xs ih =>
    rw [List.mapM_cons, wp_run_bind]
    refine wp_mono (hf x xs s hs) fun r s' hr => ?_
    cases r with
    | error e => exact hr
    | ok y =>
      rw [onOk_ok, wp_run_bind]
      refine wp_mono (ih hr) fun r s' hr => ?_
      cases r <;> exact hr

/-- On success `I` holds again, on failure `E`. -/
def Keeps (env : Env A R S C) (I E : S → Prop) (p : ExceptT ε (Prog A R) α) : Prop :=
  ∀ s, I s → p.run.wp env (onOk (fun _ => I) fun _ => E) s

theorem keeps_pure {I E : S → Prop} (x : α) :
    Keeps env I E (pure x : ExceptT ε (Prog A R) α) := fun _ hs => hs

theorem Keeps.bind {I E : S → Prop} {p : ExceptT ε (Prog A R) α}
    {f : α → ExceptT ε (Prog A R) β} (hp : Keeps env I E p) (hf : ∀ x, Keeps env I E (f x)) :
    Keeps env I E (p >>= f) := by
  intro s hs
  rw [wp_run_bind]
  refine wp_mono (hp s hs) fun r s' hr => ?_
  cases r with
  | ok x => exact hf x s' hr
  | error e => exact hr

theorem keeps_mapM {I E : S → Prop} {f : γ → ExceptT ε (Prog A R) β}
    (hf : ∀ x, Keeps env I E (f x)) (xs : List γ) : Keeps env I E (xs.mapM f) :=
  fun _ hs => wp_run_mapM f (fun _ => I) hs fun x _ s hs => hf x s hs

/-! Programs that keep an invariant, also when they fail. -/

section Stays

variable {I : S → Prop}

def Stays (env : Env A R S C) (I : S → Prop) (p : Prog A R α) : Prop :=
  ∀ s, I s → p.wp env (fun _ => I) s

theorem stays_pure (x : α) : (pure x : Prog A R α).Stays env I := fun _ hs => hs

theorem Stays.bind {p : Prog A R α} {f : α → Prog A R β} (hp : p.Stays env I)
    (hf : ∀ x, (f x).Stays env I) : (p >>= f).Stays env I := by
  intro s hs
  rw [wp_bind]
  exact wp_mono (hp s hs) fun x s' hs' => hf x s' hs'

theorem Stays.map {p : Prog A R α} (hp : p.Stays env I) (f : α → β) : (f <$> p).Stays env I := by
  intro s hs
  rw [wp_map]
  exact hp s hs

theorem stays_mapM {f : α → Prog A R β} (hf : ∀ x, (f x).Stays env I) (xs : List α) :
    (xs.mapM f).Stays env I := by
  intro s hs
  refine wp_mono (wp_mapM f (fun _ => I) (fun _ _ => True) hs fun x _ s hs => ?_) fun _ _ h => h.1
  exact wp_mono (hf x s hs) fun _ _ h => ⟨h, trivial⟩

theorem stays_throw (e : ε) : (throw e : ExceptT ε (Prog A R) α).run.Stays env I :=
  fun _ hs => hs

theorem stays_ok (x : α) : (pure x : ExceptT ε (Prog A R) α).run.Stays env I := fun _ hs => hs

theorem stays_lift {p : Prog A R α} (hp : p.Stays env I) :
    (liftM p : ExceptT ε (Prog A R) α).run.Stays env I := by
  intro s hs
  rw [wp_run_lift]
  exact hp s hs

theorem stays_run_bind {p : ExceptT ε (Prog A R) α} {f : α → ExceptT ε (Prog A R) β}
    (hp : p.run.Stays env I) (hf : ∀ x, (f x).run.Stays env I) : (p >>= f).run.Stays env I := by
  intro s hs
  rw [wp_run_bind]
  refine wp_mono (hp s hs) fun r s' hs' => ?_
  cases r with
  | ok x => exact hf x s' hs'
  | error e => exact hs'

theorem stays_forM {f : α → ExceptT ε (Prog A R) PUnit} (hf : ∀ x, (f x).run.Stays env I)
    (xs : List α) : (xs.forM f).run.Stays env I := by
  intro s hs
  refine wp_mono (wp_run_forM f (fun _ => I) (E := fun _ => I) hs fun x _ s hs => ?_)
    fun r s' h => ?_
  · refine wp_mono (hf x s hs) fun r s' h => ?_
    cases r <;> exact h
  · cases r <;> exact h

end Stays

theorem Stays.keeps {I E : S → Prop} {p : Prog A R α} (hp : p.Stays env I) :
    Keeps env I E (liftM p : ExceptT ε (Prog A R) α) := by
  intro s hs
  rw [wp_run_lift]
  exact hp s hs

/-! A state may be looked at through a function that the actions respect. -/

theorem wp_of_image {T : Type} {D : A → Type} {env' : Env A R T D} (f : S → T)
    (hrely : ∀ s s₀, env.rely s s₀ → env'.rely (f s) (f s₀))
    (hstep : ∀ a s c, env.ok a s c → ∃ d, env'.ok a (f s) d ∧
      env'.exec a (f s) d = ((env.exec a s c).1, f (env.exec a s c).2) ∧
      (env'.guar a (f s) (env'.exec a (f s) d) → env.guar a s (env.exec a s c)))
    {p : Prog A R α} {Q : α → T → Prop} {s : S} (h : p.wp env' Q (f s)) :
    p.wp env (fun x s' => Q x (f s')) s := by
  induction p generalizing s with
  | ret x => exact h
  | act a k ih =>
    intro s₀ hs c hc
    obtain ⟨d, hd, hexec, hguar⟩ := hstep a s₀ c hc
    obtain ⟨hg, hk⟩ := h (f s₀) (hrely s s₀ hs) d hd
    refine ⟨hguar hg, ih _ ?_⟩
    rw [hexec] at hk
    exact hk

end Logic

/-! What a run inherits from the calculus. -/

section Sound

variable {S C : Type} [Inhabited C] {env : Env A R S fun _ => C} {p : Prog A R α}

theorem run_of_wp {Q : α → S → Prop} (hrely : ∀ s, env.rely s s) {cs : List C} {s : S}
    (h : p.wp env Q s) (hcs : p.ChoicesOk env.exec env.ok cs s) :
    Q (p.run env.exec cs s).1 (p.run env.exec cs s).2 := by
  induction p generalizing s cs with
  | ret x => exact h
  | act a k ih => exact ih _ (h s (hrely s) cs.headI hcs.1).2 hcs.2

theorem choicesOk_of_forall (hok : ∀ a s c, env.ok a s c) (cs : List C) (s : S) :
    p.ChoicesOk env.exec env.ok cs s := by
  induction p generalizing s cs with
  | ret x => trivial
  | act a k ih => exact ⟨hok a s _, ih _ _ _⟩

/-- Where there is always an admissible choice, there is an admissible run. -/
theorem exists_choicesOk (hok : ∀ a s, ∃ c, env.ok a s c) (s : S) :
    ∃ cs, p.ChoicesOk env.exec env.ok cs s := by
  induction p generalizing s with
  | ret x => exact ⟨[], trivial⟩
  | act a k ih =>
    obtain ⟨c, hc⟩ := hok a s
    obtain ⟨cs, hcs⟩ := ih (env.exec a s c).1 (env.exec a s c).2
    exact ⟨c :: cs, hc, hcs⟩

end Sound

/-! Programs that share a state and take turns, in any order. Each has a part of the state for
itself. -/

section Pool

variable {ι S L C : Type} [DecidableEq ι]

structure Pool (ι A : Type) (R : A → Type) (α S L : Type) where
  shared : S
  thread : ι → Prog A R α × L

variable (exec : ι → (a : A) → S × L → C → R a × (S × L))

namespace Pool

def step (c : Pool ι A R α S L) (turn : ι × C) : Pool ι A R α S L :=
  match (c.thread turn.1).1 with
  | .ret _ => c
  | .act a k =>
    let out := exec turn.1 a (c.shared, (c.thread turn.1).2) turn.2
    ⟨out.2.1, Function.update c.thread turn.1 (k out.1, out.2.2)⟩

theorem step_ret {c : Pool ι A R α S L} {turn : ι × C} {x : α} (h : (c.thread turn.1).1 = .ret x) :
    c.step exec turn = c := by
  simp only [step, h]

theorem step_act {c : Pool ι A R α S L} {turn : ι × C} {a : A} {k : R a → Prog A R α}
    (h : (c.thread turn.1).1 = .act a k) :
    c.step exec turn =
      ⟨(exec turn.1 a (c.shared, (c.thread turn.1).2) turn.2).2.1,
        Function.update c.thread turn.1
          (k (exec turn.1 a (c.shared, (c.thread turn.1).2) turn.2).1,
            (exec turn.1 a (c.shared, (c.thread turn.1).2) turn.2).2.2)⟩ := by
  simp only [step, h]

variable {env : ι → Env A R (S × L) fun _ => C} {Q : ι → α → S × L → Prop}

/-- Every thread is on its way to its `Q`. -/
def OnTheWay (env : ι → Env A R (S × L) fun _ => C) (Q : ι → α → S × L → Prop)
    (c : Pool ι A R α S L) : Prop :=
  ∀ i, (c.thread i).1.wp (env i) (Q i) (c.shared, (c.thread i).2)

/-- One turn: the thread that acts keeps its guarantee, and the others stay on their way if what it
does is what they rely on. -/
theorem OnTheWay.step {c : Pool ι A R α S L} {turn : ι × C} {a : A} {k : R a → Prog A R α}
    (hexec : ∀ i, (env i).exec = exec i) (hrefl : ∀ i s, (env i).rely s s)
    (htrans : ∀ i s t u, (env i).rely s t → (env i).rely t u → (env i).rely s u)
    (hQ : ∀ i x s t, (env i).rely s t → Q i x s → Q i x t) (h : c.OnTheWay env Q)
    (hact : (c.thread turn.1).1 = .act a k)
    (hok : (env turn.1).ok a (c.shared, (c.thread turn.1).2) turn.2)
    (hothers : (env turn.1).guar a (c.shared, (c.thread turn.1).2)
        (exec turn.1 a (c.shared, (c.thread turn.1).2) turn.2) →
      ∀ j, j ≠ turn.1 → (env j).rely (c.shared, (c.thread j).2)
        ((exec turn.1 a (c.shared, (c.thread turn.1).2) turn.2).2.1, (c.thread j).2)) :
    (env turn.1).guar a (c.shared, (c.thread turn.1).2)
        (exec turn.1 a (c.shared, (c.thread turn.1).2) turn.2) ∧
      (c.step exec turn).OnTheWay env Q := by
  have hi := h turn.1
  rw [hact] at hi
  obtain ⟨hguar, hk⟩ := hi _ (hrefl turn.1 _) turn.2 hok
  rw [hexec] at hguar hk
  refine ⟨hguar, fun j => ?_⟩
  rw [step_act exec hact]
  by_cases hj : j = turn.1
  · subst hj
    simpa using hk
  · dsimp only
    rw [Function.update_of_ne hj]
    exact wp_rely (htrans j) (hQ j) (h j) (hothers hguar j hj)

end Pool
end Pool

end Prog
