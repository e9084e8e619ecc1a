import CrabMate.Ctl.Intent
import CrabMate.Lib.ReadReplace
import CrabMate.Lib.Str

/-! The operations on the declaration file, of the command line and of the control socket. Each of
them reads the whole file, edits one entry and replaces the whole file; no lock is held between. -/
namespace CrabMate.Ctl

open ReadReplace

/-! The file. -/

abbrev DeclM := ExceptT CtlError (Prog (Access InstancesFile) (Access.Res InstancesFile CtlError))

namespace Instances

/-- The check of one entry of a file that is read. -/
def validateEntry (entry : String × Declaration) : Except CtlError Unit :=
  match validateName entry.1 with
  | .error e => .error (.usage "bad_instances_entry" s!"声明项 `{entry.1}` 非法：{e.message}")
  | .ok () =>
    if entry.2.workspace.any fun w => (RustStr.trim w.toList).isEmpty then
      .error (.usage "bad_instances_entry" (s!"声明项 `{entry.1}` 的 workspace 为空串：" ++
        "不指定工作区请**省略该键**（实例将以待绑定态启动）"))
    else if entry.2.profile.isSome && entry.2.config.isSome then
      .error (.usage "profile_and_config_conflict"
        (s!"声明项 `{entry.1}` 同时给了 `profile` 与 `config`：" ++
          "只能二选一（profile 内部已含 config）"))
    else .ok ()

def validate (file : InstancesFile) : Except CtlError Unit := file.rows.forM validateEntry

/-- Reads the file and checks it; a missing one is empty. -/
def loadOptional : DeclM InstancesFile := ExceptT.mk (Prog.perform Access.load)

def writeAtomic (file : InstancesFile) : DeclM Unit :=
  ExceptT.mk (Prog.perform (Access.replace file))

def upsert (name : String) (decl : Declaration) : DeclM Bool := do
  let file ← loadOptional
  let created := (file.lookup name).isNone
  writeAtomic (file.put (name, decl))
  pure created

def removeEntry (name : String) : DeclM Bool := do
  let file ← loadOptional
  if (file.lookup name).isNone then pure false
  else do
    writeAtomic (file.deleteWhere fun entry => entry.1 = name)
    pure true

/-- None for a name that is not declared, else whether the flag has changed. -/
def setEnabled (name : String) (enabled : Bool) : DeclM (Option Bool) := do
  let file ← loadOptional
  match file.lookup name with
  | none => pure none
  | some entry =>
    if entry.2.enabled = enabled then pure (some false)
    else do
      writeAtomic (Ctl.setEnabled file name enabled)
      pure (some true)

end Instances

/-! The operations. -/

structure AddSpec where
  name : String
  workspace : String
  profile : Option String := none
  port : Option ℕ := none
  enabled : Bool := true
  deriving DecidableEq

def AddSpec.decl (spec : AddSpec) : Declaration where
  workspace := some spec.workspace
  config := none
  profile := spec.profile
  port := spec.port
  enabled := spec.enabled
  env := []

inductive DeclOutcome where
  | added (created : Bool)
  | removed (removed : Bool)
  | toggled (missing changed : Bool)
  deriving DecidableEq

/-- What the file system says of a workspace. -/
structure Workspaces where
  site : Site := {}
  isDir : String → Bool := fun _ => true

namespace Decl

def rejectBadWorkspace (ws : Workspaces) (decl : Declaration) : Except CtlError Unit := do
  match ← decl.workspacePath ws.site with
  | none => pure ()
  | some p =>
    if ws.isDir p then pure ()
    else .error (.usage "bad_workspace" s!"workspace 不存在或不是目录：{p}")

/-- An entry that is declared already is left as it is. -/
def add (ws : Workspaces) (spec : AddSpec) : DeclM DeclOutcome := do
  ExceptT.mk (pure (validateName spec.name))
  ExceptT.mk (pure (rejectBadWorkspace ws spec.decl))
  let file ← Instances.loadOptional
  if (file.lookup spec.name).isSome then pure (.added false)
  else do
    -- the file is read once more
    let _ ← Instances.upsert spec.name spec.decl
    pure (.added true)

def remove (name : String) : DeclM DeclOutcome := do
  ExceptT.mk (pure (validateName name))
  let removed ← Instances.removeEntry name
  pure (.removed removed)

def setEnabled (name : String) (enabled : Bool) : DeclM DeclOutcome := do
  ExceptT.mk (pure (validateName name))
  match ← Instances.setEnabled name enabled with
  | none => pure (.toggled true false)
  | some changed => pure (.toggled false changed)

end Decl

inductive DeclOp where
  | add (spec : AddSpec)
  | remove (name : String)
  | setEnabled (name : String) (enabled : Bool)
  deriving DecidableEq

namespace DeclOp

def name : DeclOp → String
  | .add spec => spec.name
  | .remove name | .setEnabled name _ => name

def program (ws : Workspaces) : DeclOp → Program InstancesFile CtlError DeclOutcome
  | .add spec => (Decl.add ws spec).run
  | .remove name => (Decl.remove name).run
  | .setEnabled name enabled => (Decl.setEnabled name enabled).run

/-- The operation when nothing else runs. -/
def alone (ws : Workspaces) (op : DeclOp) (file : InstancesFile) :
    Except CtlError DeclOutcome × InstancesFile :=
  ReadReplace.alone Instances.validate (op.program ws) file

/-- An `add` replaces a file in which the name is not declared. -/
def Fits (op : DeclOp) (file : InstancesFile) : Prop :=
  match op with
  | .add spec => file.lookup spec.name = none
  | _ => True

instance (op : DeclOp) (file : InstancesFile) : Decidable (op.Fits file) := by
  unfold Fits
  split <;> infer_instance

/-! What an operation is for. -/

/-- What is checked before the file is read. -/
def guard (ws : Workspaces) : DeclOp → Except CtlError Unit
  | .add spec => validateName spec.name >>= fun _ => Decl.rejectBadWorkspace ws spec.decl
  | .remove name | .setEnabled name _ => validateName name

def edit (file : InstancesFile) : DeclOp → Edit InstancesFile DeclOutcome
  | .add spec =>
    if (file.lookup spec.name).isSome then .keep (.added false)
    else .put (file.put (spec.name, spec.decl)) (.added true)
  | .remove name =>
    if (file.lookup name).isNone then .keep (.removed false)
    else .put (file.deleteWhere fun entry => entry.1 = name) (.removed true)
  | .setEnabled name enabled =>
    match file.lookup name with
    | none => .keep (.toggled true false)
    | some entry =>
      if entry.2.enabled = enabled then .keep (.toggled false false)
      else .put (Ctl.setEnabled file name enabled) (.toggled false true)

section Alone

variable {ws : Workspaces} {op : DeclOp} {file : InstancesFile}

theorem edit_add (spec : AddSpec) (file : InstancesFile) :
    (add spec).edit file =
      if (file.lookup spec.name).isSome then .keep (.added false)
      else .put (file.put (spec.name, spec.decl)) (.added true) := rfl

theorem program_of_error {e : CtlError} (h : op.guard ws = .error e) :
    op.program ws = .ret (.error e) := by
  cases op with
  | add spec =>
    show (Decl.add ws spec).run = _
    unfold Decl.add
    rcases Except.bind_eq_error.mp h with hname | ⟨u, hname, hws⟩
    · rw [hname]
      rfl
    · rw [hname, hws]
      rfl
  | remove name =>
    show (Decl.remove name).run = _
    unfold Decl.remove
    rw [show validateName name = .error e from h]
    rfl
  | setEnabled name enabled =>
    show (Decl.setEnabled name enabled).run = _
    unfold Decl.setEnabled
    rw [show validateName name = .error e from h]
    rfl

theorem run_passed_bind {α : Type} (k : DeclM α) :
    ((ExceptT.mk (pure (.ok ())) : DeclM Unit) >>= fun _ => k).run = k.run := rfl

theorem run_loadOptional_bind {α : Type} (k : InstancesFile → DeclM α) :
    (Instances.loadOptional >>= k).run = reading fun file => (k file).run := by
  refine congrArg (Prog.act Access.load) (funext fun r => ?_)
  cases r <;> rfl

theorem run_writeAtomic_bind {α : Type} (file : InstancesFile) (x : α) :
    (Instances.writeAtomic file >>= fun _ => pure x).run = commit (.put file x) := by
  refine congrArg (Prog.act _) (funext fun r => ?_)
  cases r <;> rfl

theorem program_remove {name : String} (h : (remove name).guard ws = .ok ()) :
    (remove name).program ws = reading fun file => commit ((remove name).edit file) := by
  show (Decl.remove name).run = _
  unfold Decl.remove Instances.removeEntry
  rw [show validateName name = .ok () from h, run_passed_bind, bind_assoc, run_loadOptional_bind]
  refine congrArg reading (funext fun file => ?_)
  simp only [edit]
  split_ifs
  · rfl
  · rw [bind_assoc]
    exact run_writeAtomic_bind _ (DeclOutcome.removed true)

theorem program_setEnabled {name : String} {enabled : Bool}
    (h : (setEnabled name enabled).guard ws = .ok ()) :
    (setEnabled name enabled).program ws =
      reading fun file => commit ((setEnabled name enabled).edit file) := by
  show (Decl.setEnabled name enabled).run = _
  unfold Decl.setEnabled Instances.setEnabled
  rw [show validateName name = .ok () from h, run_passed_bind, bind_assoc, run_loadOptional_bind]
  refine congrArg reading (funext fun file => ?_)
  simp only [edit]
  cases file.lookup name with
  | none => rfl
  | some entry =>
    dsimp only
    split_ifs
    · rfl
    · rw [bind_assoc]
      exact run_writeAtomic_bind _ (DeclOutcome.toggled false true)

/-- An `add` reads the file once to look the name up, and once more to replace it. -/
theorem program_add {spec : AddSpec} (h : (add spec).guard ws = .ok ()) :
    (add spec).program ws = reading fun file =>
      if (file.lookup spec.name).isSome then .ret (.ok (.added false))
      else reading fun file => commit (.put (file.put (spec.name, spec.decl)) (.added true)) := by
  obtain ⟨u, hname, hws⟩ := Except.bind_eq_ok.mp h
  show (Decl.add ws spec).run = _
  unfold Decl.add Instances.upsert
  rw [hname, hws, run_passed_bind, run_passed_bind, run_loadOptional_bind]
  refine congrArg reading (funext fun file => ?_)
  split_ifs
  · rfl
  · rw [bind_assoc, run_loadOptional_bind]
    refine congrArg reading (funext fun file => ?_)
    dsimp only
    rw [bind_assoc]
    exact run_writeAtomic_bind _ (DeclOutcome.added true)

theorem alone_eq (hguard : op.guard ws = .ok ()) (hcheck : Instances.validate file = .ok ()) :
    op.alone ws file = (op.edit file).effect file := by
  unfold alone
  cases op with
  | add spec =>
    rw [program_add hguard]
    unfold ReadReplace.alone
    rw [run_reading hcheck, edit_add]
    split_ifs
    · rfl
    · rw [run_reading hcheck]
      rfl
  | remove name =>
    rw [program_remove hguard]
    exact alone_reading_commit hcheck
  | setEnabled name enabled =>
    rw [program_setEnabled hguard]
    exact alone_reading_commit hcheck

theorem serves_program (ws : Workspaces) (op : DeclOp) :
    Serves Instances.validate op.Fits (op.alone ws) none (op.program ws) := by
  cases hguard : op.guard ws with
  | error e =>
    rw [program_of_error hguard]
    exact ⟨e, rfl⟩
  | ok =>
    cases op with
    | add spec =>
      have halone := fun file => @alone_eq ws (.add spec) file hguard
      rw [program_add hguard]
      refine serves_reading (fun file hcheck => ?_) none
      split_ifs with hdeclared
      · refine Or.inl ⟨.added false, rfl, ?_⟩
        rw [halone file hcheck, edit_add, if_pos hdeclared]
        rfl
      · refine Or.inr (serves_reading_commit (fun read hread hfits => ?_) _)
        have hnew : read.lookup spec.name = none := hfits _ _ rfl
        rw [halone read hread, edit_add, if_neg (by rw [hnew]; decide)]
    | remove name =>
      rw [program_remove hguard]
      exact serves_reading_commit (fun file hcheck _ => alone_eq hguard hcheck) none
    | setEnabled name enabled =>
      rw [program_setEnabled hguard]
      exact serves_reading_commit (fun file hcheck _ => alone_eq hguard hcheck) none

theorem effect_of_alone {g : InstancesFile} {x : DeclOutcome} (h : op.alone ws file = (.ok x, g)) :
    (op.edit file).effect file = ((.ok x : Except CtlError DeclOutcome), g) := by
  cases hguard : op.guard ws with
  | error e =>
    unfold alone at h
    rw [program_of_error hguard] at h
    cases congrArg Prod.fst h
  | ok =>
    cases hcheck : Instances.validate file with
    | ok => rw [← alone_eq hguard hcheck, h]
    | error e =>
      have hfails : (op.alone ws file).1 = .error e := by
        unfold alone
        cases op with
        | add spec =>
          rw [program_add hguard]
          exact alone_reading_of_error hcheck
        | remove name =>
          rw [program_remove hguard]
          exact alone_reading_of_error hcheck
        | setEnabled name enabled =>
          rw [program_setEnabled hguard]
          exact alone_reading_of_error hcheck
      rw [h] at hfails
      cases hfails

end Alone

section Edit

variable {op : DeclOp} {file g : InstancesFile} {x : DeclOutcome} {name : String}

theorem lookup_of_ne
    (h : (op.edit file).effect file = ((.ok x : Except CtlError DeclOutcome), g))
    (hname : op.name ≠ name) : g.lookup name = file.lookup name := by
  cases op with
  | add spec =>
    rw [edit_add] at h
    split_ifs at h
    · rw [← (Prod.mk.inj h).2]
    · rw [← (Prod.mk.inj h).2]
      exact Table.lookup_put_of_ne _ hname
  | remove n =>
    unfold edit at h
    dsimp only at h
    split_ifs at h
    · rw [← (Prod.mk.inj h).2]
    · rw [← (Prod.mk.inj h).2]
      refine Table.lookup_deleteWhere_of_not fun e he => ?_
      rw [he]
      exact decide_eq_false hname.symm
  | setEnabled n enabled =>
    unfold edit at h
    dsimp only at h
    split at h
    · rw [← (Prod.mk.inj h).2]
    · split_ifs at h
      · rw [← (Prod.mk.inj h).2]
      · rw [← (Prod.mk.inj h).2]
        refine Table.lookup_updateWhere_of_not _ fun e he => ?_
        rw [he]
        exact decide_eq_false hname.symm

/-- The declaration of the name, but for its flag. -/
def Declares (spec : AddSpec) (file : InstancesFile) : Prop :=
  ∃ decl, file.lookup spec.name = some (spec.name, decl) ∧
    { decl with enabled := spec.enabled } = spec.decl

theorem declares_of_added {spec : AddSpec}
    (h : ((add spec).edit file).effect file =
      ((.ok (.added true) : Except CtlError DeclOutcome), g)) : Declares spec g := by
  rw [edit_add] at h
  split_ifs at h
  · cases Except.ok.inj (Prod.mk.inj h).1
  · rw [← (Prod.mk.inj h).2]
    exact ⟨spec.decl, Table.lookup_put_self _ _, rfl⟩

theorem declares_of_edit {spec : AddSpec} (hfile : Declares spec file)
    (h : (op.edit file).effect file = ((.ok x : Except CtlError DeclOutcome), g))
    (hop : op ≠ .remove spec.name) : Declares spec g := by
  by_cases hname : op.name = spec.name
  · obtain ⟨decl, hlookup, hdecl⟩ := hfile
    cases op with
    | add other =>
      have hdeclared : (file.lookup other.name).isSome = true := by
        rw [show other.name = spec.name from hname, hlookup]
        rfl
      rw [edit_add, if_pos hdeclared] at h
      rw [← (Prod.mk.inj h).2]
      exact ⟨decl, hlookup, hdecl⟩
    | remove n =>
      obtain rfl : n = spec.name := hname
      exact absurd rfl hop
    | setEnabled n enabled =>
      obtain rfl : n = spec.name := hname
      unfold edit at h
      dsimp only at h
      rw [hlookup] at h
      dsimp only at h
      split_ifs at h
      · rw [← (Prod.mk.inj h).2]
        exact ⟨decl, hlookup, hdecl⟩
      · rw [← (Prod.mk.inj h).2]
        exact ⟨{ decl with enabled }, Table.lookup_updateWhere_key _ hlookup (by simp), hdecl⟩
  · obtain ⟨decl, hlookup, hdecl⟩ := hfile
    exact ⟨decl, (lookup_of_ne h hname).trans hlookup, hdecl⟩

end Edit

section Serial

variable {ι : Type} {ws : Workspaces} {ops : ι → DeclOp} {file last : InstancesFile}
variable {order : List (ι × DeclOutcome)}

theorem lookup_of_serial (h : Serial (fun i => (ops i).alone ws) file order last) {name : String}
    (hname : ∀ e ∈ order, (ops e.1).name ≠ name) : last.lookup name = file.lookup name := by
  refine h.invariant (fun f => f.lookup name = file.lookup name) ?_ rfl
  intro i x f g hmem halone hf
  exact (lookup_of_ne (effect_of_alone halone) (hname _ hmem)).trans hf

theorem declares_of_serial (h : Serial (fun i => (ops i).alone ws) file order last) {i : ι}
    {spec : AddSpec} (hi : ops i = .add spec) (hadded : (i, .added true) ∈ order)
    (hkept : ∀ e ∈ order, ops e.1 ≠ .remove spec.name) : Declares spec last := by
  obtain ⟨f, g, before, after, rfl, halone, hafter⟩ := h.exists_of_mem hadded
  rw [hi] at halone
  refine hafter.invariant (Declares spec) ?_ (declares_of_added (effect_of_alone halone))
  intro j x f g hmem halone hf
  refine declares_of_edit hf (effect_of_alone halone) (hkept (j, x) ?_)
  exact List.mem_append_right _ (List.mem_cons_of_mem _ hmem)

end Serial

end DeclOp

/-- In a run in which every replacement finds the file as its operation has read it last, and that
of an `add` a file in which the name is not declared, the operations that succeed do so as if they
ran one after the other. No declaration that they do not name is touched, and one that was added is
there until it is removed. -/
theorem declarations_kept {ι : Type} [DecidableEq ι] (ws : Workspaces) (ops : ι → DeclOp)
    (file : InstancesFile) (turns : List (ι × Option CtlError))
    (hturns : Run.AllOk (step Instances.validate) (InTime fun i => (ops i).Fits)
      (start (fun i => (ops i).program ws) file) turns) :
    let last := Run.run (step Instances.validate) (start (fun i => (ops i).program ws) file) turns
    ∃ order : List (ι × DeclOutcome), (order.map Prod.fst).Nodup ∧
      (∀ i x, result? last i = some x ↔ (i, x) ∈ order) ∧
      Serial (fun i => (ops i).alone ws) file order last.shared ∧
      (∀ name, (∀ e ∈ order, (ops e.1).name ≠ name) →
        last.shared.lookup name = file.lookup name) ∧
      ∀ i spec, ops i = .add spec → result? last i = some (.added true) →
        (∀ e ∈ order, ops e.1 ≠ .remove spec.name) → DeclOp.Declares spec last.shared := by
  obtain ⟨hnodup, hresults, hserial⟩ :=
    serial_run (fun i => DeclOp.serves_program ws (ops i)) turns hturns
  refine ⟨_, hnodup, hresults, hserial, fun name => DeclOp.lookup_of_serial hserial, ?_⟩
  intro i spec hi hadded hkept
  exact DeclOp.declares_of_serial hserial hi ((hresults i _).mp hadded) hkept

/-- Two processes that add `a` and `b`. -/
def twoAdds (first : Bool) : DeclOp :=
  .add { name := if first then "a" else "b", workspace := "/w" }

def inTurn : List (Bool × Option CtlError) :=
  [(true, none), (true, none), (true, none), (false, none), (false, none), (false, none)]

theorem declarations_kept_inTurn :
    let last := Run.run (step Instances.validate)
      (start (fun i => (twoAdds i).program {}) Table.empty) inTurn
    result? last true = some (.added true) ∧
      DeclOp.Declares { name := "a", workspace := "/w" } last.shared := by
  obtain ⟨order, -, hresults, hserial, -, hkept⟩ :=
    declarations_kept {} twoAdds Table.empty inTurn (by decide +kernel)
  have hadded : result? (Run.run (step Instances.validate)
      (start (fun i => (twoAdds i).program {}) Table.empty) inTurn) true = some (.added true) := by
    decide +kernel
  refine ⟨hadded, hkept true _ rfl hadded fun e _ => ?_⟩
  cases e.1 <;> simp [twoAdds]

/-- Both look their name up, both read the file, and both replace it. -/
def atOnce : List (Bool × Option CtlError) :=
  [(true, none), (false, none), (true, none), (false, none), (true, none), (false, none)]

/-- Both report that they have created their declaration, and `a` is not declared. -/
theorem adds_at_once_lose_one :
    let last := Run.run (step Instances.validate)
      (start (fun i => (twoAdds i).program {}) Table.empty) atOnce
    result? last true = some (.added true) ∧ result? last false = some (.added true) ∧
      last.shared.lookup "a" = none ∧
      ¬ ∃ order, (∀ i x, result? last i = some x ↔ (i, x) ∈ order) ∧
        Serial (fun i => (twoAdds i).alone {}) Table.empty order last.shared := by
  intro last
  have hadded : result? last true = some (.added true) := by decide +kernel
  have hlost : last.shared.lookup "a" = none := by decide +kernel
  refine ⟨hadded, by decide +kernel, hlost, ?_⟩
  rintro ⟨order, hresults, hserial⟩
  obtain ⟨decl, hdecl, -⟩ := DeclOp.declares_of_serial hserial (i := true) rfl
    ((hresults true _).mp hadded) fun e _ => by cases e.1 <;> simp [twoAdds]
  rw [show last.shared.lookup "a" = some ("a", decl) from hdecl] at hlost
  cases hlost

end CrabMate.Ctl
