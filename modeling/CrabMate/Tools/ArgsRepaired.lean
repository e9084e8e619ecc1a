import CrabMate.Tools.ArgsRepairSearch

/-! Which calls come out of the repair with their arguments. -/
namespace CrabMate.ArgsRepair
open RustStr JsonText List Option

section Array

variable (call : Call) {X : Str} {v : JsonValue} {vs : List JsonValue}

/-- The two fields of a call, with other values in the array. -/
def callFields (vs : List JsonValue) : List (String × JsonValue) :=
  [("command", .str (String.ofList (litValue call.command))), ("args", .arr vs)]

theorem afterArgs_no_brackets : ∀ c ∈ call.afterArgs, c ≠ '[' ∧ c ≠ ']' := by
  intro c hc
  obtain hc | hc := mem_append.mp hc
  · exact ws_no_brackets _ c hc
  · obtain rfl | hc := mem_cons.mp hc
    · decide
    · exact ws_no_brackets _ c hc

theorem skipWs_afterArgs : skipWs call.afterArgs = '}' :: call.stop.1 := by
  rw [Call.afterArgs, skipWs_append call.argsValue.2, skipWs_cons (by decide)]

theorem ends_afterArgs : Ends call.afterArgs := by
  intro t ht
  rw [skipWs_afterArgs] at ht
  cases ht

theorem readText_array (hX : ∀ t, skipWs X ≠ ']' :: t)
    (h : readText (call.opening ++ '[' :: X) = some v) :
    ∃ vs r, readElements (readValue 126) X.length X = some (vs, r) ∧
      (Ends r → v = .obj (callFields call vs)) := by
  obtain ⟨fuel, htext⟩ := readText_opening call ('[' :: X)
  rw [htext, readValue_array hX] at h
  obtain ⟨⟨array, r'⟩, harray, h⟩ := bind_eq_some_iff.mp h
  obtain ⟨⟨vs, r⟩, helems, heq⟩ := map_eq_some_iff.mp harray
  obtain ⟨rfl, rfl⟩ := Prod.mk.inj heq
  obtain ⟨fs, hfields, h⟩ := bind_eq_some_iff.mp h
  refine ⟨vs, r, helems, fun hends => ?_⟩
  have hnil : fs.1 = [] := readMoreFields_eq_nil hends hfields
  split at h
  · rw [hnil] at h
    exact (Option.some.inj h).symm
  · cases h

theorem readText_of_array (h : readValue 127 ('[' :: X) = some (.arr vs, call.afterArgs)) :
    readText (call.opening ++ '[' :: X) = some (.obj (callFields call vs)) := by
  obtain ⟨fuel, htext⟩ := readText_opening call ('[' :: X)
  have hfields : readMoreFields (readValue 127) fuel call.afterArgs = some ([], call.stop.1) := by
    unfold readMoreFields
    rw [skipWs_afterArgs]
    rfl
  rw [htext, h]
  show (readMoreFields (readValue 127) fuel call.afterArgs).bind _ = _
  rw [hfields, bind_some, if_pos (skipWs_eq_nil call.stop.2)]
  rfl

theorem get?_callFields (vs : List JsonValue) :
    (JsonValue.obj (callFields call vs)).get? "args" = some (.arr vs) := rfl

theorem argsValueJson_eq : call.argsValueJson = .arr (values call.args) := by
  simp [Call.argsValueJson, Call.strings, values, Function.comp_def]

theorem meant_eq : call.meant = .obj (callFields call (values call.args)) := by
  rw [Call.meant, argsValueJson_eq]
  rfl

end Array

section Repaired

variable (call : Call)

theorem repairArgsArrayInner_ws (w : Ws) : repairArgsArrayInner w.1 = none := by
  have hblank : trim w.1 = [] := by
    have hspaces := trim_of_spaces (s := []) (b := []) (isWhitespace_ws w) nofun
    rw [append_nil, append_nil] at hspaces
    exact hspaces
  have hpart : (repairPart w.1).2 = false := by
    rw [repairPart, hblank]
    rfl
  rw [repairArgsArrayInner_eq, changed_eq (comma_notMem_of_spaces (isWhitespace_ws w)), hpart]
  rfl

theorem tryRepair_no_args (h : call.args = []) :
    tryRepairRunCommandArgsJson call.text = none := by
  have hinside : call.inside = call.noArgs.1 := if_pos h
  rw [call.tryRepair_text, hinside, scanClose_append (ws_no_brackets _), scanClose_close,
    if_pos (Nat.le_refl 1)]
  show (repairArgsArrayInner (call.noArgs.1 ++ [])).map _ = _
  rw [append_nil, repairArgsArrayInner_ws]
  rfl

/-- The array as the repair sees it. -/
theorem repaired_array {e : Elem} {es : List Elem} (hargs : call.args = e :: es) :
    (tryRepairRunCommandArgsJson call.text = none ∧ ¬ArgsKept 1 (e :: es)) ∨
    ∃ R rest, Outcome (e :: es) (ArgsKept 1 (e :: es)) call.afterArgs rest
        (',' :: ' ' :: repaired R) (changed R) ∧
      tryRepairRunCommandArgsJson call.text =
        if changed R = true then some (call.opening ++ '[' :: (repaired R ++ ']' :: rest))
        else none := by
  have hinside : ',' :: (call.inside ++ ']' :: call.afterArgs) =
      tailText (e :: es) ++ ']' :: call.afterArgs := by
    rw [Call.inside, if_neg (by rw [hargs]; nofun), hargs, elemsText_cons]
    rfl
  have houtcome := tailOutcome (afterArgs_no_brackets call) (ends_afterArgs call) (e :: es)
    (Nat.le_refl 1)
  have hcomma := scanClose_append (a := [',']) (forall_mem_singleton.mpr (by decide)) 1
    (call.inside ++ ']' :: call.afterArgs)
  unfold TailOutcome at houtcome
  rw [← hinside] at houtcome
  rw [call.tryRepair_text]
  cases hscan : scanClose 1 (call.inside ++ ']' :: call.afterArgs) with
  | none =>
    rw [hscan] at hcomma
    rw [show scanClose 1 (',' :: (call.inside ++ ']' :: call.afterArgs)) = none from hcomma]
      at houtcome
    exact Or.inl ⟨rfl, houtcome⟩
  | some r =>
    obtain ⟨R, rest⟩ := r
    rw [hscan] at hcomma
    rw [show scanClose 1 (',' :: (call.inside ++ ']' :: call.afterArgs)) = some (',' :: R, rest)
      from hcomma] at houtcome
    obtain ⟨Y, b, happends, hout⟩ := houtcome
    obtain ⟨hrepaired, hchanged⟩ := happends []
    obtain ⟨hrepaired', hchanged'⟩ := appends_comma R []
    obtain rfl := append_cancel_left (hrepaired.symm.trans hrepaired')
    obtain rfl : b = changed R := hchanged.symm.trans hchanged'
    refine Or.inr ⟨R, rest, hout, ?_⟩
    rw [bind_some, repairArgsArrayInner_eq]
    split
    · rfl
    · rfl

theorem Outcome.elements {es : List Elem} {K : Prop} {post rest Y : Str} {b : Bool}
    (h : Outcome es K post rest (',' :: ' ' :: Y) b) (hne : es ≠ []) :
    (∀ t, skipWs (Y ++ ']' :: rest) ≠ ']' :: t) ∧
      ∀ fuel, readArgs fuel (',' :: ' ' :: Y ++ ']' :: rest) =
        readElements (readValue 126) fuel (Y ++ ']' :: rest) := by
  obtain ⟨c, t, htext, hws, hclose⟩ := h.first hne
  have hX : Y ++ ']' :: rest = c :: t := (List.cons.inj (List.cons.inj htext).2).2
  constructor
  · intro t' ht
    rw [hX, skipWs_cons hws] at ht
    exact hclose (List.cons.inj ht).1
  · intro fuel
    exact readElements_append_ws (w := [' ']) (forall_mem_singleton.mpr (by decide)) 126 fuel
      (Y ++ ']' :: rest)

theorem repaired_meant (hbare : ∃ e ∈ call.args, e.item.isBare = true)
    (hkept : ArgsKept 1 call.args) :
    ∃ out, tryRepairRunCommandArgsJson call.text = some out ∧ readText out = some call.meant := by
  cases hargs : call.args with
  | nil =>
    rw [hargs] at hbare
    simp at hbare
  | cons e es =>
    rw [hargs] at hbare hkept
    obtain ⟨-, hlost⟩ | ⟨R, rest, hout, htry⟩ := repaired_array call hargs
    · exact absurd hkept hlost
    · obtain ⟨hX, helems⟩ := hout.elements (cons_ne_nil e es)
      rw [if_pos ((hout.quoted hkept).mpr hbare)] at htry
      refine ⟨_, htry, ?_⟩
      have hlength : (e :: es).length ≤ (repaired R ++ ']' :: rest).length := by
        have hsize := hout.size
        simp only [length_cons, length_append] at hsize ⊢
        omega
      have hread := hout.kept hkept _ hlength
      rw [helems] at hread
      rw [meant_eq, hargs]
      apply readText_of_array
      rw [readValue_array hX, hread]
      rfl

theorem kept_of_repairs {call : Call} (h : Repairs call) :
    (∃ e ∈ call.args, e.item.isBare = true) ∧ ArgsKept 1 call.args := by
  obtain ⟨out, v, htry, hread, hget⟩ := h
  cases hargs : call.args with
  | nil =>
    rw [tryRepair_no_args call hargs] at htry
    cases htry
  | cons e es =>
    obtain ⟨hnone, -⟩ | ⟨R, rest, hout, htry'⟩ := repaired_array call hargs
    · rw [hnone] at htry
      cases htry
    · obtain ⟨hX, helems⟩ := hout.elements (cons_ne_nil e es)
      rw [htry'] at htry
      split at htry
      · rename_i hchanged
        obtain rfl := Option.some.inj htry
        obtain ⟨vs, r, hvs, hv⟩ := readText_array call hX hread
        rw [← helems] at hvs
        obtain rfl := hv (hout.ends _ vs r hvs)
        rw [get?_callFields, argsValueJson_eq, hargs] at hget
        obtain rfl := JsonValue.arr.inj (Option.some.inj hget)
        have hkept := hout.read _ r hvs
        exact ⟨(hout.quoted hkept).mp hchanged, hkept⟩
      · cases htry

/-- The repair keeps the arguments of a call exactly if some argument has no quotes and every
argument is kept. -/
theorem repairs_iff (call : Call) : Repairs call ↔
    (∃ e ∈ call.args, e.item.isBare = true) ∧ ArgsKept 1 call.args := by
  constructor
  · exact kept_of_repairs
  · rintro ⟨hbare, hkept⟩
    obtain ⟨out, htry, hread⟩ := repaired_meant call hbare hkept
    exact ⟨out, call.meant, htry, hread, rfl⟩

/-- A listing of the files whose names start as the argument `a,b` says. -/
def listing : Call where
  command := [.plain 'l' (by decide), .plain 's' (by decide)]
  args :=
    [⟨⟨[], nofun⟩, .lit [.plain 'a' (by decide), commaChar, .plain 'b' (by decide)],
      ⟨[], nofun⟩⟩, ⟨⟨[], nofun⟩, .bare ⟨"-la".toList, nofun, by simp [isWhitespace]⟩, ⟨[], nofun⟩⟩]
  start := ⟨[], nofun⟩
  brace := ⟨[], nofun⟩
  commandKey := ⟨[], nofun⟩
  commandColon := ⟨[], nofun⟩
  commandValue := ⟨[], nofun⟩
  comma := ⟨[], nofun⟩
  argsName := ⟨[], nofun⟩
  argsColon := ⟨[], nofun⟩
  noArgs := ⟨[], nofun⟩
  argsValue := ⟨[], nofun⟩
  stop := ⟨[], nofun⟩

/-- The comma inside an argument gets a space behind it. -/
theorem listing_is_altered :
    (∃ e ∈ listing.args, e.item.isBare = true) ∧ ¬Repairs listing := by
  have htry : tryRepairRunCommandArgsJson listing.text =
      some "\x7b\"command\":\"ls\",\"args\":[\"a, b\", \"-la\"]\x7d".toList := by decide +kernel
  have hread : readText "\x7b\"command\":\"ls\",\"args\":[\"a, b\", \"-la\"]\x7d".toList =
      some (.obj [("command", .str "ls"), ("args", .arr [.str "a, b", .str "-la"])]) := by
    decide +kernel
  constructor
  · exact ⟨_, mem_cons_of_mem _ mem_cons_self, rfl⟩
  · rintro ⟨out, v, hout, hv, hget⟩
    rw [htry] at hout
    obtain rfl := Option.some.inj hout
    rw [hread] at hv
    obtain rfl := Option.some.inj hv
    revert hget
    decide +kernel

end Repaired

end CrabMate.ArgsRepair
