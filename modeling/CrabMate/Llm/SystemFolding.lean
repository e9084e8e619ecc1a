import CrabMate.Llm.VendorBody

/-! Folding the system rows of a request into its user rows. The folded list is compared with the
list it is made from, text by text and row by row. -/
namespace CrabMate
open RustStr List

section Model

/-- No two assistant rows stand side by side. -/
def NoAdjacentAssistants (rows : List Message) : Prop :=
  rows.IsChain fun a b => roleIs "assistant" a = true → roleIs "assistant" b = false

/-- A tool row follows a tool row or an assistant row with calls. -/
def ToolsFollow (rows : List Message) : Prop :=
  (∀ m ∈ rows.head?, roleIs "tool" m = false) ∧
    rows.IsChain fun a b => roleIs "tool" b = true → roleIs "tool" a = true ∨ a.callsTools = true

/-- What the upstream wants of the order of the rows. -/
structure WireValid (rows : List Message) : Prop where
  separated : NoAdjacentAssistants rows
  answered : Answered rows
  follow : ToolsFollow rows

/-- The texts of a content, also those of its parts. -/
def contentTexts : Option MessageContent → List String
  | none => []
  | some (.text s) => [s]
  | some (.parts parts) => parts.filterMap fun p => (p.get? "text").bind (·.asStr?)

/-- The texts of a row that are not blank, trimmed. -/
def spokenTexts (m : Message) : List String :=
  ((contentTexts m.content).map trimString).filter fun s => !s.isEmpty

/-- What a list of rows says: the texts of its system rows, and the other rows. -/
def bodyItems (rows : List Message) : List (String ⊕ Message) :=
  rows.flatMap fun m => if roleIs "system" m then (spokenTexts m).map .inl else [.inr m]

/-- A row of the folded list: the texts folded into it, and the row it was. -/
structure FoldedRow where
  texts : List String
  original : Option Message

namespace FoldedRow

def row (p : FoldedRow) : Message :=
  match p.original with
  | none => .userOnly (joinTexts p.texts)
  | some m =>
    if p.texts.isEmpty then m else mergeSystemTextPrefixIntoUserContent m (joinTexts p.texts)

def items (p : FoldedRow) : List (String ⊕ Message) :=
  p.texts.map .inl ++ p.original.toList.map .inr

/-- Texts are folded into user rows only. -/
def OnlyUsers (p : FoldedRow) : Prop :=
  ∀ m, p.original = some m → p.texts ≠ [] → roleIs "user" m = true

end FoldedRow

/-- The folded list says what the list says, in its order, and is as fit to be sent. -/
structure FoldsFaithfully (body folded : List Message) : Prop where
  noSystem : ∀ m ∈ folded, roleIs "system" m = false
  keeps : ∃ rows : List FoldedRow, (∀ p ∈ rows, p.OnlyUsers) ∧
    folded = rows.map FoldedRow.row ∧ rows.flatMap FoldedRow.items = bodyItems body
  valid : WireValid folded

/-- A system row the folding leaves nothing of. -/
def silentSystem (m : Message) : Bool := roleIs "system" m && (systemText? m).isNone

/-- No system row has a text in its parts, and no two assistant rows have only silent system rows
between them. -/
structure Foldable (body : List Message) : Prop where
  plain : ∀ m ∈ body, roleIs "system" m = true → ∀ parts, m.content = some (.parts parts) →
    spokenTexts m = []
  apart : NoAdjacentAssistants (body.filter fun m => !silentSystem m)

end Model

section Roles

variable {m : Message}

theorem roleIs_of_roleIs {a b : String} (h : roleIs a m = true)
    (hne : eqIgnoreAsciiCase a.toList b.toList = false) : roleIs b m = false := by
  simp only [roleIs, eqIgnoreAsciiCase, decide_eq_true_eq, decide_eq_false_iff_not] at *
  rwa [h]

theorem roleIs_userOnly (text : String) : roleIs "user" (.userOnly text) = true := by
  simp only [roleIs, Message.userOnly]
  decide

theorem role_merge (m : Message) (text : String) :
    (mergeSystemTextPrefixIntoUserContent m text).role = m.role := by
  simp only [mergeSystemTextPrefixIntoUserContent]
  split <;> rfl

theorem roleIs_merge (name text : String) :
    roleIs name (mergeSystemTextPrefixIntoUserContent m text) = roleIs name m := by
  simp only [roleIs, role_merge]

theorem callsTools_of_user (h : roleIs "user" m = true) : m.callsTools = false := by
  rw [Message.callsTools, roleIs_of_roleIs h (by decide), Bool.false_and]

end Roles

section Rows

variable {pending : List String} {m : Message} {ms : List Message}

/-- The rows of the folded list, with what they are made of. -/
def foldedRows (pending : List String) : List Message → List FoldedRow
  | [] => if pending.isEmpty then [] else [⟨pending, none⟩]
  | m :: ms =>
    if roleIs "system" m then foldedRows (pending ++ (systemText? m).toList) ms
    else if roleIs "user" m then ⟨pending, some m⟩ :: foldedRows [] ms
    else (if pending.isEmpty then [] else [⟨pending, none⟩]) ++ ⟨[], some m⟩ :: foldedRows [] ms

theorem foldPending_eq (pending : List String) (ms : List Message) :
    foldPending pending ms = (foldedRows pending ms).map FoldedRow.row := by
  induction ms generalizing pending with
  | nil =>
    rw [foldPending, foldedRows]
    split <;> rfl
  | cons m ms ih =>
    rw [foldPending, foldedRows]
    split
    · exact ih _
    split
    · rw [ih, map_cons]
      rfl
    · rw [ih, map_append, map_cons]
      split <;> rfl

theorem onlyUsers_foldedRows (pending : List String) (ms : List Message) :
    ∀ p ∈ foldedRows pending ms, p.OnlyUsers := by
  induction ms generalizing pending with
  | nil =>
    intro p hp m hm
    rw [foldedRows] at hp
    split at hp
    · cases hp
    · rw [mem_singleton.mp hp] at hm
      cases hm
  | cons m ms ih =>
    intro p hp
    rw [foldedRows] at hp
    split at hp
    · exact ih _ p hp
    split at hp
    next huser =>
      rcases mem_cons.mp hp with rfl | hp
      · intro x hx _
        rwa [← Option.some.inj hx]
      · exact ih _ p hp
    next =>
      rcases mem_append.mp hp with hp | hp
      · intro x hx
        split at hp
        · cases hp
        · rw [mem_singleton.mp hp] at hx
          cases hx
      rcases mem_cons.mp hp with rfl | hp
      · intro x _ htexts
        exact absurd rfl htexts
      · exact ih _ p hp

/-- What a list of rows says to the folding: of a system row only its plain text. -/
def plainItems (ms : List Message) : List (String ⊕ Message) :=
  ms.flatMap fun m => if roleIs "system" m then (systemText? m).toList.map .inl else [.inr m]

theorem plainItems_cons (m : Message) (ms : List Message) :
    plainItems (m :: ms) = (if roleIs "system" m then (systemText? m).toList.map .inl
      else [.inr m]) ++ plainItems ms := rfl

theorem items_foldedRows (pending : List String) (ms : List Message) :
    (foldedRows pending ms).flatMap FoldedRow.items = pending.map .inl ++ plainItems ms := by
  induction ms generalizing pending with
  | nil =>
    rw [foldedRows]
    split
    next hpending =>
      rw [List.isEmpty_iff.mp hpending]
      rfl
    next => simp [FoldedRow.items, plainItems]
  | cons m ms ih =>
    rw [foldedRows, plainItems_cons]
    split
    next => rw [ih, map_append, append_assoc]
    next =>
      split
      next => simp [ih, FoldedRow.items]
      next =>
        cases pending with
        | nil => simp [ih, FoldedRow.items]
        | cons text texts => simp [ih, FoldedRow.items]

end Rows

section Order

variable {m u prev last : Message} {ms : List Message}

theorem not_system_foldPending (pending : List String) (ms : List Message) :
    ∀ m ∈ foldPending pending ms, roleIs "system" m = false := by
  have huser : ∀ text, roleIs "system" (Message.userOnly text) = false := fun text =>
    roleIs_of_roleIs (roleIs_userOnly text) (by decide)
  induction ms generalizing pending with
  | nil =>
    intro m hm
    rw [foldPending] at hm
    split at hm
    · cases hm
    · rw [mem_singleton.mp hm]
      exact huser _
  | cons x ms ih =>
    intro m hm
    rw [foldPending] at hm
    split at hm
    · exact ih _ m hm
    next hsystem =>
      rw [Bool.not_eq_true] at hsystem
      split at hm
      · rcases mem_cons.mp hm with rfl | hm
        · split
          · exact hsystem
          · rw [roleIs_merge, hsystem]
        · exact ih _ m hm
      · rcases mem_append.mp hm with hm | hm
        · split at hm
          · cases hm
          · rw [mem_singleton.mp hm]
            exact huser _
        rcases mem_cons.mp hm with rfl | hm
        · exact hsystem
        · exact ih _ m hm

theorem noAdjacentAssistants_cons (hu : roleIs "assistant" u = false) :
    NoAdjacentAssistants (u :: ms) ↔ NoAdjacentAssistants ms := by
  rw [NoAdjacentAssistants, isChain_cons]
  simp [hu, NoAdjacentAssistants]

theorem noAdjacentAssistants_cons_cons (hu : roleIs "assistant" u = false) :
    NoAdjacentAssistants (prev :: u :: ms) ↔ NoAdjacentAssistants (u :: ms) := by
  rw [NoAdjacentAssistants, isChain_cons_cons]
  simp [hu, NoAdjacentAssistants]

theorem noAdjacentAssistants_foldPending (prev : Message) (pending : List String)
    (ms : List Message) :
    NoAdjacentAssistants (prev :: foldPending pending ms) ↔
      NoAdjacentAssistants ((if pending.isEmpty then prev else .userOnly "") ::
        ms.filter fun m => !silentSystem m) := by
  have huser : ∀ text, roleIs "assistant" (Message.userOnly text) = false := fun text =>
    roleIs_of_roleIs (roleIs_userOnly text) (by decide)
  induction ms generalizing prev pending with
  | nil =>
    rw [foldPending]
    split
    · rfl
    · rw [noAdjacentAssistants_cons_cons (huser _), noAdjacentAssistants_cons (huser _),
        filter_nil, noAdjacentAssistants_cons (huser _)]
  | cons m ms ih =>
    rw [foldPending]
    cases hsystem : roleIs "system" m with
    | true =>
      have hm : roleIs "assistant" m = false := roleIs_of_roleIs hsystem (by decide)
      rw [if_pos rfl]
      refine (ih prev _).trans ?_
      cases htext : systemText? m with
      | none => simp [silentSystem, hsystem, htext]
      | some text =>
        have hloud : silentSystem m = false := by simp [silentSystem, htext]
        rw [filter_cons_of_pos (by simp [hloud]), noAdjacentAssistants_cons_cons hm,
          noAdjacentAssistants_cons hm, if_neg (by simp), noAdjacentAssistants_cons (huser _)]
    | false =>
      have hloud : silentSystem m = false := by simp [silentSystem, hsystem]
      rw [if_neg (by simp), filter_cons_of_pos (by simp [hloud])]
      cases hrole : roleIs "user" m with
      | true =>
        have hm : roleIs "assistant" m = false := roleIs_of_roleIs hrole (by decide)
        rw [if_pos rfl, noAdjacentAssistants_cons_cons hm, noAdjacentAssistants_cons hm]
        generalize hx : (if pending.isEmpty then m else
          mergeSystemTextPrefixIntoUserContent m (joinTexts pending)) = x
        have hassistant : roleIs "assistant" x = false := by
          rw [← hx]
          split
          · exact hm
          · rw [roleIs_merge, hm]
        have hrest : NoAdjacentAssistants (x :: foldPending [] ms) ↔
            NoAdjacentAssistants (x :: ms.filter fun m => !silentSystem m) := ih x []
        rw [noAdjacentAssistants_cons_cons hassistant, hrest,
          noAdjacentAssistants_cons hassistant]
      | false =>
        have hnext : NoAdjacentAssistants (m :: foldPending [] ms) ↔
            NoAdjacentAssistants (m :: ms.filter fun m => !silentSystem m) := ih m []
        rw [if_neg (by simp)]
        split
        · simp only [NoAdjacentAssistants, nil_append, isChain_cons_cons] at hnext ⊢
          rw [hnext]
        · rw [singleton_append, noAdjacentAssistants_cons_cons (huser _),
            noAdjacentAssistants_cons (huser _), noAdjacentAssistants_cons (huser _), hnext]

theorem toolRun_foldPending (ms : List Message) :
    toolRun ms <+: toolRun (foldPending [] ms) := by
  induction ms with
  | nil => exact nil_prefix
  | cons m ms ih =>
    cases htool : roleIs "tool" m with
    | true =>
      have hsystem : roleIs "system" m = false := roleIs_of_roleIs htool (by decide)
      have huser : roleIs "user" m = false := roleIs_of_roleIs htool (by decide)
      rw [foldPending, hsystem, huser, if_neg (by simp), if_neg (by simp), isEmpty_nil,
        if_pos rfl, nil_append, toolRun, toolRun, takeWhile_cons_of_pos htool,
        takeWhile_cons_of_pos htool, cons_prefix_cons]
      exact ⟨rfl, ih⟩
    | false =>
      rw [toolRun, takeWhile_cons_of_neg (by simp [htool])]
      exact nil_prefix

theorem answered_foldPending (pending : List String) (h : Answered ms) :
    Answered (foldPending pending ms) := by
  have huser : ∀ {u : Message} {ms : List Message}, roleIs "user" u = true →
      (Answered (u :: ms) ↔ Answered ms) := by
    intro u ms hu
    rw [answered_cons, callsTools_of_user hu]
    simp
  induction ms generalizing pending with
  | nil =>
    rw [foldPending]
    split
    · exact answered_nil
    · exact (huser (roleIs_userOnly _)).mpr answered_nil
  | cons m ms ih =>
    obtain ⟨hm, hms⟩ := answered_cons.mp h
    rw [foldPending]
    split
    · exact ih _ hms
    split
    next hrole =>
      rw [huser]
      · exact ih _ hms
      · split
        · exact hrole
        · rw [roleIs_merge, hrole]
    next =>
      have hnext : Answered (m :: foldPending [] ms) := by
        refine answered_cons.mpr ⟨fun hcalls call hcall => ?_, ih _ hms⟩
        exact (List.IsPrefix.filterMap _ (toolRun_foldPending ms)).subset (hm hcalls call hcall)
      split
      · exact hnext
      · exact (huser (roleIs_userOnly _)).mpr hnext

/-- Whether tool rows may follow the row. -/
def takesTools (m : Message) : Prop := roleIs "tool" m = true ∨ m.callsTools = true

theorem not_takesTools_of {m : Message} (htool : roleIs "tool" m = false)
    (hassistant : roleIs "assistant" m = false) : ¬ takesTools m := by
  rintro (h | h)
  · rw [htool] at h
    cases h
  · rw [Message.callsTools, hassistant] at h
    cases h

/-- `last` is the row in front in the list, `prev` the row in front in the folded list. -/
theorem tools_follow_foldPending (pending : List String)
    (h : (last :: ms).IsChain fun a b => roleIs "tool" b = true → takesTools a)
    (hlast : takesTools last → prev = last ∧ pending = []) :
    (prev :: foldPending pending ms).IsChain fun a b => roleIs "tool" b = true → takesTools a := by
  have htext : ∀ text, roleIs "tool" (Message.userOnly text) = false := fun text =>
    roleIs_of_roleIs (roleIs_userOnly text) (by decide)
  induction ms generalizing prev last pending with
  | nil =>
    rw [foldPending]
    split
    · exact isChain_singleton _
    · rw [isChain_pair]
      intro htool
      rw [htext] at htool
      cases htool
  | cons m ms ih =>
    obtain ⟨hm, hms⟩ := isChain_cons_cons.mp h
    rw [foldPending]
    split
    next hrole =>
      have hno : ¬ takesTools m := not_takesTools_of (roleIs_of_roleIs hrole (by decide))
        (roleIs_of_roleIs hrole (by decide))
      exact ih _ hms fun htakes => absurd htakes hno
    split
    next hrole =>
      have hno : ¬ takesTools m := not_takesTools_of (roleIs_of_roleIs hrole (by decide))
        (roleIs_of_roleIs hrole (by decide))
      refine isChain_cons_cons.mpr ⟨fun htool => ?_, ih [] hms fun htakes => absurd htakes hno⟩
      have hfalse : roleIs "tool" m = true := by
        split at htool
        · exact htool
        · rwa [roleIs_merge] at htool
      rw [roleIs_of_roleIs hrole (by decide)] at hfalse
      cases hfalse
    next =>
      have hnext : (m :: foldPending [] ms).IsChain fun a b => roleIs "tool" b = true →
          takesTools a := ih [] hms fun _ => ⟨rfl, rfl⟩
      split
      next =>
        refine isChain_cons_cons.mpr ⟨fun htool => ?_, hnext⟩
        rw [(hlast (hm htool)).1]
        exact hm htool
      next hpending =>
        refine isChain_cons_cons.mpr ⟨fun htool => ?_,
          isChain_cons_cons.mpr ⟨fun htool => ?_, hnext⟩⟩
        · rw [htext] at htool
          cases htool
        · rw [(hlast (hm htool)).2] at hpending
          exact absurd rfl hpending

theorem toolsFollow_iff (rows : List Message) : ToolsFollow rows ↔
    (Message.userOnly "" :: rows).IsChain fun a b => roleIs "tool" b = true → takesTools a := by
  have hno : ¬ takesTools (Message.userOnly "") :=
    not_takesTools_of (roleIs_of_roleIs (roleIs_userOnly _) (by decide))
      (roleIs_of_roleIs (roleIs_userOnly _) (by decide))
  rw [ToolsFollow, isChain_cons]
  simp only [hno, imp_false, Bool.not_eq_true]
  rfl

theorem toolsFollow_fold (h : ToolsFollow ms) :
    ToolsFollow (foldSystemMessagesIntoFollowingUser ms) :=
  (toolsFollow_iff _).mpr (tools_follow_foldPending [] ((toolsFollow_iff ms).mp h)
    fun _ => ⟨rfl, rfl⟩)

theorem noAdjacentAssistants_fold (ms : List Message) :
    NoAdjacentAssistants (foldSystemMessagesIntoFollowingUser ms) ↔
      NoAdjacentAssistants (ms.filter fun m => !silentSystem m) := by
  have hassistant : roleIs "assistant" (Message.userOnly "") = false :=
    roleIs_of_roleIs (roleIs_userOnly _) (by decide)
  have h := noAdjacentAssistants_foldPending (Message.userOnly "") [] ms
  rwa [noAdjacentAssistants_cons hassistant, isEmpty_nil, if_pos rfl,
    noAdjacentAssistants_cons hassistant] at h

end Order

section Ink

/-- The visible characters of the texts of a row. -/
def ink (m : Message) : ℕ := ((contentTexts m.content).map fun s => visible s.toList).sum

def itemInk : String ⊕ Message → ℕ
  | .inl text => visible text.toList
  | .inr m => ink m

theorem visible_joinTexts (texts : List String) :
    visible (joinTexts texts).toList = (texts.map fun s => visible s.toList).sum := by
  have hjoin : ∀ lines : List Str, visible (List.intercalate ['\n', '\n'] lines) =
      (lines.map visible).sum := by
    intro lines
    induction lines with
    | nil => rfl
    | cons line lines ih =>
      cases lines with
      | nil => simp [List.intercalate]
      | cons next lines =>
        have hsplit : List.intercalate ['\n', '\n'] (line :: next :: lines) =
            line ++ ['\n', '\n'] ++ List.intercalate ['\n', '\n'] (next :: lines) := by
          simp [List.intercalate]
        have hsep : visible ['\n', '\n'] = 0 := by decide
        rw [hsplit, visible_append, visible_append, ih]
        simp only [map_cons, sum_cons]
        omega
  rw [joinTexts, String.toList_intercalate, show "\n\n".toList = ['\n', '\n'] from rfl, hjoin,
    map_map]
  rfl

theorem partText_of_textPart {part : JsonValue} {t : String} (h : textPart? part = some t) :
    part.get? "text" = some (.str t) := by
  rw [textPart?] at h
  split at h
  next =>
    obtain ⟨v, hv, hstr⟩ := Option.bind_eq_some_iff.mp h
    cases v with
    | str s =>
      obtain rfl := Option.some.inj hstr
      exact hv
    | _ => cases hstr
  next => cases h

theorem ink_merge (m : Message) (text : String) :
    ink (mergeSystemTextPrefixIntoUserContent m text) = visible text.toList + ink m := by
  have htrim : ∀ s : String, visible (trimString s).toList = visible s.toList := fun s => by
    rw [trimString, String.toList_ofList, visible_trim]
  have hblank : ∀ s : String, (trimString s).isEmpty = true → visible s.toList = 0 := by
    intro s hs
    rw [← htrim, String.isEmpty_iff.mp hs]
    rfl
  simp only [mergeSystemTextPrefixIntoUserContent]
  split
  next hempty => rw [hblank text hempty, Nat.zero_add]
  next =>
    have hbefore : ∀ s : String, visible (if (trimString s).isEmpty then trimString text else
        trimString text ++ "\n\n" ++ trimString s).toList =
          visible text.toList + visible s.toList := by
      intro s
      split
      next hempty => rw [htrim, hblank s hempty, Nat.add_zero]
      next =>
        have hsep : visible "\n\n".toList = 0 := by decide
        rw [String.toList_append, String.toList_append, visible_append, visible_append, htrim,
          htrim, hsep, Nat.add_zero]
    simp only [ink]
    cases m.content with
    | none => simp [contentTexts, htrim]
    | some content =>
      cases content with
      | text s => simp only [contentTexts, map_cons, map_nil, sum_singleton, hbefore]
      | parts parts =>
        cases parts with
        | nil => simp [contentTexts, JsonValue.get?, JsonValue.asStr?, htrim]
        | cons part rest =>
          dsimp only
          cases hpart : textPart? part with
          | some t =>
            have htext := partText_of_textPart hpart
            have hnew := JsonValue.get?_set (v := .str (if (trimString t).isEmpty then
              trimString text else trimString text ++ "\n\n" ++ trimString t)) htext
            simp only [contentTexts, filterMap_cons, hnew, htext, Option.bind_some,
              JsonValue.asStr?, map_cons, sum_cons, hbefore, Nat.add_assoc]
          | none => simp [contentTexts, JsonValue.get?, JsonValue.asStr?, htrim]

theorem ink_row (p : FoldedRow) : ink p.row = (p.items.map itemInk).sum := by
  have htexts : ((p.texts.map Sum.inl).map itemInk).sum = visible (joinTexts p.texts).toList := by
    rw [visible_joinTexts, map_map]
    rfl
  rw [FoldedRow.items, map_append, sum_append, htexts]
  cases horiginal : p.original with
  | none => simp [FoldedRow.row, horiginal, ink, contentTexts, Message.userOnly]
  | some m =>
    simp only [FoldedRow.row, horiginal, Option.toList_some, map_cons, map_nil,
      sum_singleton, itemInk]
    split
    next hnone =>
      rw [List.isEmpty_iff.mp hnone]
      simp [joinTexts]
    next => exact ink_merge m _

theorem ink_rows (rows : List FoldedRow) : ((rows.map FoldedRow.row).map ink).sum =
    ((rows.flatMap FoldedRow.items).map itemInk).sum := by
  induction rows with
  | nil => rfl
  | cons p rows ih =>
    rw [map_cons, map_cons, sum_cons, ih, flatMap_cons, map_append,
      sum_append, ink_row]

theorem visible_pos_of_not_blank {s : String} (h : (trimString s).isEmpty = false) :
    0 < visible s.toList := by
  have hne : trim s.toList ≠ [] := by
    intro hnil
    rw [trimString, hnil] at h
    cases h
  cases htrim : trim s.toList with
  | nil => exact absurd htrim hne
  | cons c rest =>
    rw [← visible_trim, htrim, visible, countP_cons,
      isWhitespace_of_trim_eq_cons htrim]
    simp

theorem spokenTexts_eq {m : Message}
    (h : ∀ parts, m.content = some (.parts parts) → spokenTexts m = []) :
    spokenTexts m = (systemText? m).toList := by
  cases hcontent : m.content with
  | none => simp [spokenTexts, systemText?, hcontent, contentTexts, messageContentAsStr]
  | some content =>
    cases content with
    | text s =>
      by_cases hblank : trimString s = "" <;>
        simp [spokenTexts, systemText?, hcontent, contentTexts, messageContentAsStr, hblank]
    | parts parts =>
      rw [h parts hcontent]
      simp [systemText?, hcontent, messageContentAsStr]

theorem bodyItems_eq {ms : List Message} (h : ∀ m ∈ ms, roleIs "system" m = true → ∀ parts,
    m.content = some (.parts parts) → spokenTexts m = []) : bodyItems ms = plainItems ms := by
  induction ms with
  | nil => rfl
  | cons m ms ih =>
    rw [bodyItems, flatMap_cons, ← bodyItems, plainItems_cons,
      ih fun x hx => h x (mem_cons_of_mem _ hx)]
    split
    next hsystem => rw [spokenTexts_eq (h m mem_cons_self hsystem)]
    next => rfl

/-- A text in parts is lost, and its visible characters with it. -/
theorem ink_plainItems (ms : List Message) :
    ((plainItems ms).map itemInk).sum ≤ ((bodyItems ms).map itemInk).sum ∧
      (((plainItems ms).map itemInk).sum = ((bodyItems ms).map itemInk).sum →
        ∀ m ∈ ms, roleIs "system" m = true → ∀ parts, m.content = some (.parts parts) →
          spokenTexts m = []) := by
  induction ms with
  | nil => exact ⟨Nat.le_refl _, fun _ m hm => absurd hm not_mem_nil⟩
  | cons m ms ih =>
    obtain ⟨hle, heq⟩ := ih
    rw [bodyItems, flatMap_cons, ← bodyItems, plainItems_cons, map_append,
      map_append, sum_append, sum_append]
    by_cases hlost : roleIs "system" m = true ∧ (∃ parts, m.content = some (.parts parts)) ∧
        spokenTexts m ≠ []
    · obtain ⟨hsystem, ⟨parts, hparts⟩, hne⟩ := hlost
      have hnone : systemText? m = none := by simp [systemText?, hparts, messageContentAsStr]
      have hpos : 0 < (((spokenTexts m).map (Sum.inl (β := Message))).map itemInk).sum := by
        obtain ⟨text, texts, htexts⟩ := exists_cons_of_ne_nil hne
        have hmem : text ∈ spokenTexts m := htexts ▸ mem_cons_self
        obtain ⟨hmap, hfull⟩ := mem_filter.mp hmem
        obtain ⟨s, -, rfl⟩ := mem_map.mp hmap
        have hvisible : 0 < visible (trimString s).toList :=
          visible_pos_of_not_blank (by simpa [trimString_trimString] using hfull)
        rw [htexts]
        simp only [map_cons, sum_cons, itemInk]
        omega
      simp only [hsystem, hnone, if_true, Option.toList_none, map_nil, sum_nil]
      exact ⟨by omega, fun h => by omega⟩
    · have hrow : roleIs "system" m = true → ∀ parts, m.content = some (.parts parts) →
          spokenTexts m = [] := by
        intro hsystem parts hparts
        by_contra hne
        exact hlost ⟨hsystem, ⟨parts, hparts⟩, hne⟩
      have hsame : (if roleIs "system" m = true then (spokenTexts m).map Sum.inl
          else [Sum.inr m]) = if roleIs "system" m = true then (systemText? m).toList.map Sum.inl
            else [Sum.inr m] := by
        split
        next hsystem => rw [spokenTexts_eq (hrow hsystem)]
        next => rfl
      rw [hsame]
      refine ⟨by omega, fun h x hx => ?_⟩
      rcases mem_cons.mp hx with rfl | hx
      · exact hrow
      · exact heq (by omega) x hx

end Ink

section Faithful

variable {body : List Message}

/-- Exactly the lists whose system texts are plain and part no assistant rows in silence are folded
into lists that say the same and are as fit to be sent. -/
theorem foldsFaithfully_iff (hvalid : WireValid body) :
    FoldsFaithfully body (foldSystemMessagesIntoFollowingUser body) ↔ Foldable body := by
  have hrows : foldSystemMessagesIntoFollowingUser body =
      (foldedRows [] body).map FoldedRow.row := foldPending_eq [] body
  constructor
  · intro h
    obtain ⟨rows, -, hfolded, hitems⟩ := h.keeps
    refine ⟨(ink_plainItems body).2 ?_, (noAdjacentAssistants_fold body).mp h.valid.separated⟩
    rw [← hitems, ← ink_rows, ← hfolded, hrows, ink_rows, items_foldedRows, map_nil,
      nil_append]
  · intro h
    exact {
      noSystem := not_system_foldPending [] body
      keeps := ⟨foldedRows [] body, onlyUsers_foldedRows [] body, hrows, by
        rw [items_foldedRows, bodyItems_eq h.plain, map_nil, nil_append]⟩
      valid := {
        separated := (noAdjacentAssistants_fold body).mpr h.apart
        answered := answered_foldPending [] hvalid.answered
        follow := toolsFollow_fold hvalid.follow } }

variable (serde : ToolJson)

theorem role_sanitize (m : Message) :
    (sanitizeAssistantToolCallArguments serde m).role = m.role := by
  rw [sanitizeAssistantToolCallArguments]
  split <;> rfl

theorem roleIs_sanitize (name : String) (m : Message) :
    roleIs name (sanitizeAssistantToolCallArguments serde m) = roleIs name m := by
  simp only [roleIs, role_sanitize]

theorem sanitize_of_not_assistant {m : Message} (h : roleIs "assistant" m = false) :
    sanitizeAssistantToolCallArguments serde m = m := by
  rw [sanitizeAssistantToolCallArguments, h]
  rfl

/-- The arguments of the calls can be mended before the folding or behind it. -/
theorem foldPending_sanitize (pending : List String) (ms : List Message) :
    foldPending pending (ms.map (sanitizeAssistantToolCallArguments serde)) =
      (foldPending pending ms).map (sanitizeAssistantToolCallArguments serde) := by
  have huser : ∀ {m : Message}, roleIs "user" m = true →
      sanitizeAssistantToolCallArguments serde m = m := fun h =>
    sanitize_of_not_assistant serde (roleIs_of_roleIs h (by decide))
  induction ms generalizing pending with
  | nil =>
    rw [map_nil, foldPending]
    split
    · rfl
    · rw [map_singleton, huser (roleIs_userOnly _)]
  | cons m ms ih =>
    rw [map_cons, foldPending, foldPending, roleIs_sanitize, roleIs_sanitize]
    split
    next hsystem =>
      rw [ih, sanitize_of_not_assistant serde (roleIs_of_roleIs hsystem (by decide))]
    split
    next hrole =>
      rw [map_cons, ih, huser hrole]
      split
      · rw [huser hrole]
      · rw [huser (m := mergeSystemTextPrefixIntoUserContent m _) (by rw [roleIs_merge, hrole])]
    next =>
      rw [map_append, map_cons, ih]
      split
      · rfl
      · rw [map_singleton, huser (roleIs_userOnly _)]

/-- The folded body is the body folded. -/
theorem conversationMessagesToVendorBody_fold (messages : List Message)
    (preserveReasoning preserveDeepseek : Bool) :
    conversationMessagesToVendorBody serde messages true preserveReasoning preserveDeepseek =
      foldSystemMessagesIntoFollowingUser
        (conversationMessagesToVendorBody serde messages false preserveReasoning
          preserveDeepseek) :=
  (foldPending_sanitize serde [] _).symm

/-- When the body of a request is folded faithfully. -/
theorem vendor_body_folds_faithfully_iff (messages : List Message)
    (preserveReasoning preserveDeepseek : Bool)
    (hvalid : WireValid (conversationMessagesToVendorBody serde messages false preserveReasoning
      preserveDeepseek)) :
    FoldsFaithfully
        (conversationMessagesToVendorBody serde messages false preserveReasoning preserveDeepseek)
        (conversationMessagesToVendorBody serde messages true preserveReasoning
          preserveDeepseek) ↔
      Foldable (conversationMessagesToVendorBody serde messages false preserveReasoning
        preserveDeepseek) := by
  rw [conversationMessagesToVendorBody_fold]
  exact foldsFaithfully_iff hvalid

theorem wireValid_of_no_calls {rows : List Message} (hseparated : NoAdjacentAssistants rows)
    (hcalls : ∀ m ∈ rows, m.callsTools = false) (htools : ∀ m ∈ rows, roleIs "tool" m = false) :
    WireValid rows where
  separated := hseparated
  answered pre m post heq hrole call hcall := by
    have hm := hcalls m (by rw [heq]; simp)
    rw [callsTools_of_mem_calls hrole hcall] at hm
    cases hm
  follow := by
    refine ⟨fun m hm => htools m (mem_of_mem_head? hm), ?_⟩
    refine (isChain_isInfix rows).imp fun a b hab htool => ?_
    rw [htools b (hab.subset (by simp))] at htool
    cases htool

def assistantSays (text : String) : Message :=
  ⟨"assistant", some (.text text), none, none, none, none, none⟩

def systemSays (text : String) : Message :=
  ⟨"system", some (.text text), none, none, none, none, none⟩

def noJson : ToolJson := ⟨fun _ => none, fun _ => []⟩

def greetingRows : List Message :=
  [systemSays "Be brief.", .userOnly "Hello", assistantSays "Hi."]

theorem vendor_body_folds_faithfully_greeting :
    FoldsFaithfully (conversationMessagesToVendorBody noJson greetingRows false false false)
      (conversationMessagesToVendorBody noJson greetingRows true false false) := by
  have hbody : conversationMessagesToVendorBody noJson greetingRows false false false =
      greetingRows := by decide +kernel
  have hseparated : NoAdjacentAssistants greetingRows := by
    unfold NoAdjacentAssistants
    decide +kernel
  refine (vendor_body_folds_faithfully_iff noJson greetingRows false false ?_).mpr ?_
  · rw [hbody]
    exact wireValid_of_no_calls hseparated (by decide +kernel) (by decide +kernel)
  · rw [hbody]
    refine ⟨fun m hm _ parts hparts => ?_, ?_⟩
    · simp only [greetingRows, mem_cons, not_mem_nil, or_false] at hm
      rcases hm with rfl | rfl | rfl <;> cases hparts
    · have hloud : (greetingRows.filter fun m => !silentSystem m) = greetingRows := by
        decide +kernel
      rwa [hloud]

def silentRows : List Message :=
  [.userOnly "Hello", assistantSays "Hi.", systemSays "", assistantSays "Well?"]

theorem silent_system_row_leaves_assistants_adjacent :
    WireValid (conversationMessagesToVendorBody noJson silentRows false false false) ∧
      ¬ FoldsFaithfully (conversationMessagesToVendorBody noJson silentRows false false false)
        (conversationMessagesToVendorBody noJson silentRows true false false) := by
  have hbody : conversationMessagesToVendorBody noJson silentRows false false false =
      silentRows := by decide +kernel
  have hseparated : NoAdjacentAssistants silentRows := by
    unfold NoAdjacentAssistants
    decide +kernel
  have hvalid : WireValid silentRows :=
    wireValid_of_no_calls hseparated (by decide +kernel) (by decide +kernel)
  rw [conversationMessagesToVendorBody_fold, hbody]
  refine ⟨hvalid, fun h => ?_⟩
  have hapart := ((foldsFaithfully_iff hvalid).mp h).apart
  unfold NoAdjacentAssistants at hapart
  revert hapart
  decide +kernel

end Faithful
end CrabMate
