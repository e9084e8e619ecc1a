import Mathlib.Data.List.Basic

/-! Runs of a deterministic system: a step function folded over a list of operations, a
condition on each step, and the induction rules for what whole runs preserve. -/
namespace Run

variable {S O : Type*} (step : S → O → S)

def run (s : S) (ops : List O) : S := ops.foldl step s

@[simp] theorem run_nil (s : S) : run step s [] = s := rfl

@[simp] theorem run_cons (s : S) (op : O) (ops : List O) :
    run step s (op :: ops) = run step (step s op) ops := rfl

@[simp] theorem run_append (s : S) (ops₁ ops₂ : List O) :
    run step s (ops₁ ++ ops₂) = run step (run step s ops₁) ops₂ := List.foldl_append

/-- Each step of the run satisfies `ok` in the state in which it is taken. -/
def AllOk (ok : S → O → Prop) (s : S) : List O → Prop
  | [] => True
  | op :: ops => ok s op ∧ AllOk ok (step s op) ops

instance decidableAllOk (ok : S → O → Prop) [∀ s op, Decidable (ok s op)] :
    ∀ (s : S) (ops : List O), Decidable (AllOk step ok s ops)
  | _, [] => isTrue trivial
  | s, op :: ops =>
    have := decidableAllOk ok (step s op) ops
    inferInstanceAs (Decidable (ok s op ∧ AllOk step ok (step s op) ops))

theorem allOk_append (ok : S → O → Prop) (s : S) (ops₁ ops₂ : List O) :
    AllOk step ok s (ops₁ ++ ops₂) ↔
      AllOk step ok s ops₁ ∧ AllOk step ok (run step s ops₁) ops₂ := by
  induction ops₁ generalizing s with
  | nil => simp [AllOk]
  | cons op ops₁ ih => simp [AllOk, ih, and_assoc]

theorem allOk_of_forall_mem {ok : O → Prop} (s : S) (ops : List O) (h : ∀ op ∈ ops, ok op) :
    AllOk step (fun _ op => ok op) s ops := by
  induction ops generalizing s with
  | nil => trivial
  | cons op ops ih =>
    exact ⟨h op List.mem_cons_self, ih _ fun op' h' => h op' (List.mem_cons_of_mem _ h')⟩

theorem allOk_congr {ok ok' : S → O → Prop} (h : ∀ s op, ok s op ↔ ok' s op) (s : S)
    (ops : List O) : AllOk step ok s ops ↔ AllOk step ok' s ops := by
  induction ops generalizing s with
  | nil => rfl
  | cons op ops ih => rw [AllOk, AllOk, h, ih]

theorem allOk_and (ok ok' : S → O → Prop) (s : S) (ops : List O) :
    AllOk step (fun s op => ok s op ∧ ok' s op) s ops ↔
      AllOk step ok s ops ∧ AllOk step ok' s ops := by
  induction ops generalizing s with
  | nil => simp [AllOk]
  | cons op ops ih => simp only [AllOk, ih, and_and_and_comm]

theorem exists_first_bad (ok : S → O → Prop) {s : S} {ops : List O} (h : ¬ AllOk step ok s ops) :
    ∃ before op after, ops = before ++ op :: after ∧ AllOk step ok s before ∧
      ¬ ok (run step s before) op := by
  induction ops generalizing s with
  | nil => exact absurd trivial h
  | cons op ops ih =>
    by_cases hop : ok s op
    · have hrest : ¬ AllOk step ok (step s op) ops := fun hall => h ⟨hop, hall⟩
      obtain ⟨before, bad, after, rfl, hbefore, hbad⟩ := ih hrest
      exact ⟨op :: before, bad, after, rfl, ⟨hop, hbefore⟩, hbad⟩
    · exact ⟨[], op, ops, rfl, trivial, hop⟩

variable {step}

/-- An invariant kept by every admissible step holds after every admissible run. -/
theorem invariant {ok : S → O → Prop} {Inv : S → Prop}
    (hstep : ∀ s op, Inv s → ok s op → Inv (step s op)) {s : S} (hs : Inv s)
    {ops : List O} (hops : AllOk step ok s ops) : Inv (run step s ops) := by
  induction ops generalizing s with
  | nil => exact hs
  | cons op ops ih => exact ih (hstep s op hs hops.1) hops.2

/-- An invariant kept by every step holds after every run. -/
theorem invariant' {Inv : S → Prop} (hstep : ∀ s op, Inv s → Inv (step s op)) {s : S}
    (hs : Inv s) (ops : List O) : Inv (run step s ops) := by
  induction ops generalizing s with
  | nil => exact hs
  | cons op ops ih => exact ih (hstep s op hs)

/-- When a step keeps the invariant exactly if it is admissible, the invariant holds in every
state of a run exactly if every step of the run is admissible. -/
theorem always_iff {ok : S → O → Prop} {Inv : S → Prop}
    (hstep : ∀ s op, Inv s → (Inv (step s op) ↔ ok s op)) {s : S} (hs : Inv s) (ops : List O) :
    (∀ k, Inv (run step s (ops.take k))) ↔ AllOk step ok s ops := by
  induction ops generalizing s with
  | nil => simp [AllOk, hs]
  | cons op ops ih =>
    constructor
    · intro h
      have hop : ok s op := (hstep s op hs).mp (h 1)
      exact ⟨hop, (ih ((hstep s op hs).mpr hop)).mp fun k => h (k + 1)⟩
    · rintro ⟨hop, hops⟩ k
      cases k with
      | zero => exact hs
      | succ k => exact (ih ((hstep s op hs).mpr hop)).mpr hops k

/-- Two conditions that agree in good states agree along the permitted runs from one. -/
theorem allOk_congr_of_good {permits ok ok' : S → O → Prop} {Good : S → Prop}
    (hgood : ∀ s op, Good s → permits s op → Good (step s op))
    (h : ∀ s op, Good s → (ok s op ↔ ok' s op)) {s : S} (hs : Good s) {ops : List O}
    (hops : AllOk step permits s ops) : AllOk step ok s ops ↔ AllOk step ok' s ops := by
  induction ops generalizing s with
  | nil => rfl
  | cons op ops ih => rw [AllOk, AllOk, h s op hs, ih (hgood s op hs hops.1) hops.2]

/-- `always_iff` along the permitted runs from a good state. -/
theorem always_iff_of_good {permits ok : S → O → Prop} {Good Inv : S → Prop}
    (hgood : ∀ s op, Good s → permits s op → Good (step s op))
    (hstep : ∀ s op, Good s → permits s op → Inv s → (Inv (step s op) ↔ ok s op)) {s : S}
    (hs : Good s) (hinv : Inv s) {ops : List O} (hops : AllOk step permits s ops) :
    (∀ k, Inv (run step s (ops.take k))) ↔ AllOk step ok s ops := by
  induction ops generalizing s with
  | nil => simp [AllOk, hinv]
  | cons op ops ih =>
    have hnext := hgood s op hs hops.1
    constructor
    · intro h
      have hop : ok s op := (hstep s op hs hops.1 hinv).mp (h 1)
      have hinv' := (hstep s op hs hops.1 hinv).mpr hop
      exact ⟨hop, (ih hnext hinv' hops.2).mp fun k => h (k + 1)⟩
    · rintro ⟨hop, hrest⟩ k
      cases k with
      | zero => exact hinv
      | succ k => exact (ih hnext ((hstep s op hs hops.1 hinv).mpr hop) hops.2).mpr hrest k

end Run
