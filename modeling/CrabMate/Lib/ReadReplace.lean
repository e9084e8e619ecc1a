import CrabMate.Lib.Prog

/-! Operations on one file, each of which reads the whole file and replaces it. Any number of them
run at once; a read and a replacement are single actions, and either may fail. A run is serial if
each operation that succeeds has, with its last action, the effect that it has alone. -/
namespace ReadReplace

variable {F E α β : Type}

inductive Access (F : Type) where
  | load
  | replace (file : F)

@[reducible] def Access.Res (F E : Type) : Access F → Type
  | .load => Except E F
  | .replace _ => Except E Unit

abbrev Program (F E α : Type) := Prog (Access F) (Access.Res F E) (Except E α)

/-- The file, and the one that the operation has read last. A failure is a choice of the
environment; `check` refuses files. -/
def exec (check : F → Except E Unit) (a : Access F) (s : F × Option F) (fault : Option E) :
    a.Res F E × (F × Option F) :=
  match a, fault with
  | .load, none =>
    match check s.1 with
    | .ok () => (.ok s.1, (s.1, some s.1))
    | .error e => (.error e, s)
  | .replace file, none => (.ok (), (file, s.2))
  | .load, some e => (.error e, s)
  | .replace _, some e => (.error e, s)

/-- An operation that runs alone and without a failure. -/
def alone (check : F → Except E Unit) (p : Program F E α) (file : F) : Except E α × F :=
  let out := p.run (exec check) [] (file, none)
  (out.1, out.2.1)

/-- What becomes of a file that has been read: it is left alone, or replaced. -/
inductive Edit (F α : Type) where
  | keep (x : α)
  | put (new : F) (x : α)

def Edit.effect (file : F) : Edit F α → Except E α × F
  | .keep x => (.ok x, file)
  | .put new x => (.ok x, new)

/-- Replaces the file, or does not. -/
def commit : Edit F α → Program F E α
  | .keep x => .ret (.ok x)
  | .put new x => .act (.replace new) fun
    | .ok () => .ret (.ok x)
    | .error e => .ret (.error e)

/-- Reads the file and goes on with it. -/
def reading (k : F → Program F E α) : Program F E α :=
  .act .load fun
    | .ok file => k file
    | .error e => .ret (.error e)

/-- The way of an operation that has read the file `seen` last: where a file is read that settles
it, or one is replaced that is as it was read and that it `fits`, it succeeds as it does alone, and
this is its last action. -/
def Serves (check : F → Except E Unit) (fits : F → Prop) (serial : F → Except E α × F) :
    Option F → Program F E α → Prop
  | _, .ret result => ∃ e, result = .error e
  | _, .act .load k => (∀ e, ∃ e', k (.error e) = .ret (.error e')) ∧
      ∀ file, check file = .ok () →
        (∃ x, k (.ok file) = .ret (.ok x) ∧ serial file = (.ok x, file)) ∨
          Serves check fits serial (some file) (k (.ok file))
  | seen, .act (.replace new) k => (∀ e, ∃ e', k (.error e) = .ret (.error e')) ∧
      ∃ x, k (.ok ()) = .ret (.ok x) ∧
        ∀ file, seen = some file → fits file → serial file = (.ok x, new)

section Alone

variable {check : F → Except E Unit} {fits : F → Prop} {serial : F → Except E α × F}
variable {file : F} {k : F → Program F E α} {f : F → Edit F α}

theorem alone_commit (edit : Edit F α) (seen : Option F) :
    let out := (commit edit).run (exec check) [] (file, seen)
    (out.1, out.2.1) = edit.effect file := by
  cases edit <;> rfl

theorem run_reading (hcheck : check file = .ok ()) (seen : Option F) :
    (reading k).run (exec check) [] (file, seen) =
      (k file).run (exec check) [] (file, some file) := by
  have hexec : exec check Access.load (file, seen) ([] : List (Option E)).headI =
      (.ok file, (file, some file)) := by
    simp only [exec, hcheck, List.headI_nil, Option.default_eq_none]
  unfold reading
  rw [Prog.run, List.tail_nil, hexec]

theorem alone_reading_of_error {e : E} (hcheck : check file = .error e) :
    (alone check (reading k) file).1 = .error e := by
  have hexec : exec check Access.load (file, none) ([] : List (Option E)).headI =
      (.error e, (file, none)) := by
    simp only [exec, hcheck, List.headI_nil, Option.default_eq_none]
  unfold alone reading
  rw [Prog.run, List.tail_nil, hexec]
  rfl

theorem alone_reading_commit (hcheck : check file = .ok ()) :
    alone check (reading fun file => commit (f file)) file = (f file).effect file := by
  unfold alone
  rw [run_reading hcheck]
  exact alone_commit (f file) (some file)

theorem serves_reading (h : ∀ file, check file = .ok () →
    (∃ x, k file = .ret (.ok x) ∧ serial file = (.ok x, file)) ∨
      Serves check fits serial (some file) (k file)) (seen : Option F) :
    Serves check fits serial seen (reading k) :=
  ⟨fun e => ⟨e, rfl⟩, h⟩

/-- An operation that reads the file and then replaces it, or does not. -/
theorem serves_reading_commit
    (hserial : ∀ file, check file = .ok () → (∀ new x, f file = .put new x → fits file) →
      serial file = (f file).effect file) (seen : Option F) :
    Serves check fits serial seen (reading fun file => commit (f file)) := by
  refine serves_reading (fun file hcheck => ?_) seen
  cases hedit : f file with
  | keep x =>
    refine Or.inl ⟨x, rfl, ?_⟩
    rw [hserial file hcheck (by rw [hedit]; nofun), hedit]
    rfl
  | put new x =>
    refine Or.inr ⟨fun e => ⟨e, rfl⟩, x, rfl, ?_⟩
    intro read hseen hfits
    obtain rfl := Option.some.inj hseen
    rw [hserial file hcheck fun _ _ _ => hfits, hedit]
    rfl

end Alone

/-! Operations at the same time. -/

variable {ι : Type} {fits : ι → F → Prop}

abbrev Pool (ι F E α : Type) := Prog.Pool ι (Access F) (Access.Res F E) (Except E α) F (Option F)

def start (progs : ι → Program F E α) (file : F) : Pool ι F E α := ⟨file, fun i => (progs i, none)⟩

/-- The result of an operation that has succeeded. -/
def result? (c : Pool ι F E α) (i : ι) : Option α :=
  match (c.thread i).1 with
  | .ret (.ok x) => some x
  | _ => none

/-- A replacement finds the file as the operation has read it last, and fit for it. -/
def InTime (fits : ι → F → Prop) (c : Pool ι F E α) (turn : ι × Option E) : Prop :=
  match (c.thread turn.1).1 with
  | .act (.replace _) _ => (c.thread turn.1).2 = some c.shared ∧ fits turn.1 c.shared
  | _ => True

instance [DecidableEq F] [∀ i file, Decidable (fits i file)] (c : Pool ι F E α)
    (turn : ι × Option E) : Decidable (InTime fits c turn) :=
  match h : (c.thread turn.1).1 with
  | .ret _ => isTrue (by rw [InTime, h]; trivial)
  | .act .load _ => isTrue (by rw [InTime, h]; trivial)
  | .act (.replace _) _ =>
    decidable_of_iff ((c.thread turn.1).2 = some c.shared ∧ fits turn.1 c.shared)
      (by rw [InTime, h])

/-- The operations one after the other, with what each of them returns. -/
inductive Serial (serial : ι → F → Except E α × F) : F → List (ι × α) → F → Prop
  | nil (file : F) : Serial serial file [] file
  | cons {file next last : F} {i : ι} {x : α} {rest : List (ι × α)}
      (hfirst : serial i file = (.ok x, next)) (hrest : Serial serial next rest last) :
      Serial serial file ((i, x) :: rest) last

/-- What an action does to the file: nothing, or what the operation that it completes does alone. -/
def Effect (serial : ι → F → Except E α × F) (file : F) : Option (ι × α) → F → Prop
  | none, next => next = file
  | some (i, x), next => serial i file = (.ok x, next)

/-- The operations are on their way, or they have succeeded. -/
def OnTheWay (check : F → Except E Unit) (fits : ι → F → Prop) (serial : ι → F → Except E α × F)
    (c : Pool ι F E α) : Prop :=
  ∀ i, (∃ x, result? c i = some x) ∨
    Serves check (fits i) (serial i) (c.thread i).2 (c.thread i).1

theorem result?_eq_some_iff {c : Pool ι F E α} {i : ι} {x : α} :
    result? c i = some x ↔ (c.thread i).1 = .ret (.ok x) := by
  unfold result?
  constructor
  · intro h
    split at h
    · next y hy => rw [hy, Option.some.inj h]
    · cases h
  · intro h
    rw [h]

section Action

variable {check : F → Except E Unit} {fits : F → Prop} {serial : F → Except E α × F}
variable {seen : Option F} {p : Program F E α} {file : F} {fault : Option E}

theorem Serves.ne_ok (h : Serves check fits serial seen p) (x : α) : p ≠ .ret (.ok x) := by
  rintro rfl
  obtain ⟨e, he⟩ := h
  cases he

theorem serves_error {k : Except E β → Program F E α}
    (h : ∀ e, ∃ e', k (.error e) = .ret (.error e')) (e : E) :
    Serves check fits serial seen (k (.error e)) := by
  obtain ⟨e', he⟩ := h e
  rw [he]
  exact ⟨e', rfl⟩

theorem Serves.load {k : Except E F → Program F E α}
    (h : Serves check fits serial seen (.act .load k)) (file : F) (fault : Option E) :
    let out := exec check .load (file, seen) fault
    ((∃ x, k out.1 = .ret (.ok x) ∧ serial file = (.ok x, file)) ∨
      Serves check fits serial out.2.2 (k out.1)) ∧ out.2.1 = file := by
  obtain ⟨herror, hok⟩ := h
  cases fault with
  | some e => exact ⟨Or.inr (serves_error herror e), rfl⟩
  | none =>
    dsimp only [exec]
    cases hcheck : check file with
    | error e => exact ⟨Or.inr (serves_error herror e), rfl⟩
    | ok => exact ⟨hok file hcheck, rfl⟩

theorem Serves.replace {new : F} {k : Except E Unit → Program F E α}
    (h : Serves check fits serial seen (.act (.replace new) k)) (hseen : seen = some file)
    (hfits : fits file) (fault : Option E) :
    let out := exec check (.replace new) (file, seen) fault
    (∃ x, k out.1 = .ret (.ok x) ∧ serial file = (.ok x, out.2.1)) ∨
      Serves check fits serial out.2.2 (k out.1) ∧ out.2.1 = file := by
  obtain ⟨herror, x, hret, hserial⟩ := h
  cases fault with
  | some e => exact Or.inr ⟨serves_error herror e, rfl⟩
  | none => exact Or.inl ⟨x, hret, hserial file hseen hfits⟩

theorem Serves.exec {a : Access F} {k : a.Res F E → Program F E α}
    (h : Serves check fits serial seen (.act a k))
    (htime : ∀ new, a = .replace new → seen = some file ∧ fits file) (fault : Option E) :
    let out := ReadReplace.exec check a (file, seen) fault
    (∃ x, k out.1 = .ret (.ok x) ∧ serial file = (.ok x, out.2.1)) ∨
      Serves check fits serial out.2.2 (k out.1) ∧ out.2.1 = file := by
  cases a with
  | load =>
    obtain ⟨hway, hsame⟩ := h.load file fault
    rcases hway with ⟨x, hret, hserial⟩ | hway
    · exact Or.inl ⟨x, hret, by rw [hsame]; exact hserial⟩
    · exact Or.inr ⟨hway, hsame⟩
  | replace new =>
    obtain ⟨hseen, hfits⟩ := htime new rfl
    exact h.replace hseen hfits fault

end Action

/-! Serial runs. -/

section Serial

variable {serial : ι → F → Except E α × F} {file last : F} {order : List (ι × α)}

theorem Serial.invariant (Inv : F → Prop) (h : Serial serial file order last)
    (hstep : ∀ i x f g, (i, x) ∈ order → serial i f = (.ok x, g) → Inv f → Inv g)
    (hfile : Inv file) : Inv last := by
  induction h with
  | nil file => exact hfile
  | cons hfirst hrest ih =>
    refine ih (fun i x f g hmem => hstep i x f g (List.mem_cons_of_mem _ hmem)) ?_
    exact hstep _ _ _ _ List.mem_cons_self hfirst hfile

theorem Serial.exists_of_mem (h : Serial serial file order last) {i : ι} {x : α}
    (hmem : (i, x) ∈ order) : ∃ f g before after, order = before ++ (i, x) :: after ∧
      serial i f = (.ok x, g) ∧ Serial serial g after last := by
  induction h with
  | nil => cases hmem
  | @cons file next last j y rest hfirst hrest ih =>
    rcases List.mem_cons.mp hmem with heq | hmem
    · obtain ⟨rfl, rfl⟩ := Prod.mk.inj heq
      exact ⟨file, next, [], rest, rfl, hfirst, hrest⟩
    · obtain ⟨f, g, before, after, rfl, hserial, hafter⟩ := ih hmem
      exact ⟨f, g, _ :: before, after, rfl, hserial, hafter⟩

end Serial

/-! Turns. -/

variable [DecidableEq ι]

def step (check : F → Except E Unit) (c : Pool ι F E α) (turn : ι × Option E) : Pool ι F E α :=
  Prog.Pool.step (fun _ => exec check) c turn

/-- The operation that succeeds with this turn. -/
def completed (check : F → Except E Unit) (c : Pool ι F E α) (turn : ι × Option E) :
    Option (ι × α) :=
  match result? c turn.1 with
  | some _ => none
  | none => (result? (step check c turn) turn.1).map fun x => (turn.1, x)

/-- The operations of a run that succeed, in the order in which they do. -/
def completions (check : F → Except E Unit) : Pool ι F E α → List (ι × Option E) → List (ι × α)
  | _, [] => []
  | c, turn :: turns =>
    (completed check c turn).toList ++ completions check (step check c turn) turns

section Turn

variable {check : F → Except E Unit} {fits : ι → F → Prop} {serial : ι → F → Except E α × F}
variable {c : Pool ι F E α} {turn : ι × Option E} {i : ι} {x : α}

theorem step_of_ret {r : Except E α} (h : (c.thread turn.1).1 = .ret r) : step check c turn = c :=
  Prog.Pool.step_ret _ h

theorem step_of_act {a : Access F} {k : a.Res F E → Program F E α}
    (h : (c.thread turn.1).1 = .act a k) :
    let out := exec check a (c.shared, (c.thread turn.1).2) turn.2
    (step check c turn).thread turn.1 = (k out.1, out.2.2) ∧
      (step check c turn).shared = out.2.1 := by
  have hstep := Prog.Pool.step_act (fun _ : ι => exec check) h
  unfold step
  rw [hstep]
  exact ⟨Function.update_self .., rfl⟩

theorem thread_step_of_ne (h : i ≠ turn.1) : (step check c turn).thread i = c.thread i := by
  cases hthread : (c.thread turn.1).1 with
  | ret r => rw [step_of_ret hthread]
  | act a k =>
    have hstep := Prog.Pool.step_act (fun _ : ι => exec check) hthread
    unfold step
    rw [hstep]
    exact Function.update_of_ne h ..

theorem result?_step_iff : result? (step check c turn) i = some x ↔
    result? c i = some x ∨ completed check c turn = some (i, x) := by
  by_cases hi : i = turn.1
  · subst hi
    unfold completed
    cases hresult : result? c turn.1 with
    | some y =>
      rw [step_of_ret (result?_eq_some_iff.mp hresult), hresult]
      simp
    | none => simp
  · have hcompleted : completed check c turn ≠ some (i, x) := by
      unfold completed
      intro h
      split at h
      · cases h
      · obtain ⟨y, -, hy⟩ := Option.map_eq_some_iff.mp h
        exact hi (congrArg Prod.fst hy).symm
    rw [or_iff_left hcompleted]
    unfold result?
    rw [thread_step_of_ne hi]

theorem completed_of_act {a : Access F} {k : a.Res F E → Program F E α}
    (h : (c.thread turn.1).1 = .act a k) :
    completed check c turn = (result? (step check c turn) turn.1).map fun x => (turn.1, x) := by
  have hnone : result? c turn.1 = none := by
    unfold result?
    rw [h]
  unfold completed
  rw [hnone]

/-- One turn: the file is left alone, or the operation that succeeds does what it does alone. -/
theorem OnTheWay.step (h : OnTheWay check fits serial c) (hturn : InTime fits c turn) :
    OnTheWay check fits serial (step check c turn) ∧
      Effect serial c.shared (completed check c turn) (ReadReplace.step check c turn).shared := by
  cases hthread : (c.thread turn.1).1 with
  | ret r =>
    have hnone : completed check c turn = none := by
      unfold completed
      rw [step_of_ret hthread]
      cases result? c turn.1 <;> rfl
    rw [hnone, step_of_ret hthread]
    exact ⟨h, rfl⟩
  | act a k =>
    obtain ⟨hnew, hshared⟩ : (ReadReplace.step check c turn).thread turn.1 = _ ∧ _ :=
      step_of_act hthread
    have hserves := (h turn.1).resolve_left fun ⟨x, hx⟩ => by
      rw [result?_eq_some_iff, hthread] at hx
      cases hx
    rw [hthread] at hserves
    have htime : ∀ new, a = .replace new →
        (c.thread turn.1).2 = some c.shared ∧ fits turn.1 c.shared := by
      rintro new rfl
      unfold InTime at hturn
      rwa [hthread] at hturn
    have hothers : ∀ i, i ≠ turn.1 → (∃ x, result? (ReadReplace.step check c turn) i = some x) ∨
        Serves check (fits i) (serial i) ((ReadReplace.step check c turn).thread i).2
          ((ReadReplace.step check c turn).thread i).1 := by
      intro i hi
      unfold result?
      rw [thread_step_of_ne hi]
      exact h i
    rw [completed_of_act hthread, hshared]
    rcases hserves.exec htime turn.2 with ⟨x, hret, hserial⟩ | ⟨hway, hsame⟩
    · have hresult : result? (ReadReplace.step check c turn) turn.1 = some x := by
        rw [result?_eq_some_iff, hnew]
        exact hret
      rw [hresult]
      refine ⟨fun i => ?_, hserial⟩
      by_cases hi : i = turn.1
      · exact Or.inl ⟨x, hi ▸ hresult⟩
      · exact hothers i hi
    · have hresult : result? (ReadReplace.step check c turn) turn.1 = none := by
        rw [Option.eq_none_iff_forall_ne_some]
        intro x hx
        rw [result?_eq_some_iff, hnew] at hx
        exact hway.ne_ok x hx
      rw [hresult]
      refine ⟨fun i => ?_, hsame⟩
      by_cases hi : i = turn.1
      · subst hi
        rw [hnew]
        exact Or.inr hway
      · exact hothers i hi

theorem completed_eq_some (h : completed check c turn = some (i, x)) : result? c i = none := by
  unfold completed at h
  split at h
  · cases h
  · next hnone =>
    obtain ⟨y, -, hy⟩ := Option.map_eq_some_iff.mp h
    have hi : turn.1 = i := congrArg Prod.fst hy
    rwa [← hi]

end Turn

section Runs

variable {check : F → Except E Unit} {fits : ι → F → Prop} {serial : ι → F → Except E α × F}
variable {c : Pool ι F E α}

theorem result?_run_iff (turns : List (ι × Option E)) (i : ι) (x : α) :
    result? (Run.run (step check) c turns) i = some x ↔
      result? c i = some x ∨ (i, x) ∈ completions check c turns := by
  induction turns generalizing c with
  | nil => simp [completions]
  | cons turn turns ih =>
    rw [Run.run_cons, ih, result?_step_iff, completions, List.mem_append, Option.mem_toList,
      or_assoc]

theorem result?_eq_none_of_mem {turns : List (ι × Option E)} {e : ι × α}
    (h : e ∈ completions check c turns) : result? c e.1 = none := by
  induction turns generalizing c with
  | nil => cases h
  | cons turn turns ih =>
    rw [completions, List.mem_append, Option.mem_toList] at h
    rcases h with h | h
    · exact completed_eq_some h
    · rw [Option.eq_none_iff_forall_ne_some]
      intro x hx
      have hnext : result? (step check c turn) e.1 = some x := result?_step_iff.mpr (Or.inl hx)
      rw [ih h] at hnext
      cases hnext

theorem nodup_completions (turns : List (ι × Option E)) :
    ((completions check c turns).map Prod.fst).Nodup := by
  induction turns generalizing c with
  | nil => exact List.nodup_nil
  | cons turn turns ih =>
    rw [completions]
    cases hcompleted : completed check c turn with
    | none => exact ih
    | some e =>
      refine List.nodup_cons.mpr ⟨fun hmem => ?_, ih⟩
      obtain ⟨f, hf, hfe⟩ := List.mem_map.mp hmem
      have hdone : result? (step check c turn) e.1 = some e.2 :=
        result?_step_iff.mpr (Or.inr hcompleted)
      rw [← hfe, result?_eq_none_of_mem hf] at hdone
      cases hdone

theorem serial_of_onTheWay (h : OnTheWay check fits serial c) {turns : List (ι × Option E)}
    (hturns : Run.AllOk (step check) (InTime fits) c turns) :
    Serial serial c.shared (completions check c turns)
      (Run.run (step check) c turns).shared := by
  induction turns generalizing c with
  | nil => exact .nil _
  | cons turn turns ih =>
    obtain ⟨hnext, heffect⟩ := h.step hturns.1
    have hrest := ih hnext hturns.2
    rw [completions, Run.run_cons]
    cases hcompleted : completed check c turn with
    | none =>
      rw [hcompleted] at heffect
      rw [show (step check c turn).shared = c.shared from heffect] at hrest
      exact hrest
    | some e =>
      rw [hcompleted] at heffect
      exact .cons heffect hrest

/-- A run whose replacements are in time is serial: the operations succeed as they do alone, one
after the other in the order in which they succeed. -/
theorem serial_run {progs : ι → Program F E α} {file : F}
    (hserves : ∀ i, Serves check (fits i) (serial i) none (progs i)) (turns : List (ι × Option E))
    (hturns : Run.AllOk (step check) (InTime fits) (start progs file) turns) :
    let order := completions check (start progs file) turns
    let last := Run.run (step check) (start progs file) turns
    (order.map Prod.fst).Nodup ∧ (∀ i x, result? last i = some x ↔ (i, x) ∈ order) ∧
      Serial serial file order last.shared := by
  refine ⟨nodup_completions turns, fun i x => ?_,
    serial_of_onTheWay (fun i => Or.inr (hserves i)) hturns⟩
  have hbegun : result? (start progs file : Pool ι F E α) i ≠ some x := by
    rw [ne_eq, result?_eq_some_iff]
    exact (hserves i).ne_ok x
  rw [result?_run_iff, or_iff_right hbegun]

end Runs

end ReadReplace
