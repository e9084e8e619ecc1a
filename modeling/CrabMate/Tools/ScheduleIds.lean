import CrabMate.Lib.Decimal
import CrabMate.Lib.Except
import CrabMate.Tools.Schedule
import Mathlib.Data.List.Nodup

/-! Whether the ids of reminders and events stay distinct over whole runs, and what a call by id
then changes. -/
namespace CrabMate.Schedule
open List Except

open RustStr (trimString)
open Decimal

/-- One file, the number of the addition that each item comes from, and the stamps of all additions
so far. Only the items are stored. -/
structure Shelf (α : Type) where
  items : List α := []
  serials : List ℕ := []
  additions : List (ℕ × ℕ) := []

variable {α : Type} {key : α → String} {kind : String} {s : Shelf α} {stamp : ℕ × ℕ} {id : String}

namespace Shelf

def added (s : Shelf α) (stamp : ℕ × ℕ) (items : List α) : Shelf α :=
  ⟨items, s.serials ++ [s.additions.length], s.additions ++ [stamp]⟩

def changed (s : Shelf α) (items : List α) : Shelf α := { s with items }

def removed (key : α → String) (id : String) (s : Shelf α) (items : List α) : Shelf α :=
  let kept := ((s.items.map key).zip s.serials).filter fun p => p.1 ≠ id
  { s with items, serials := kept.map Prod.snd }

/-- A call that fails leaves the file as it is. -/
def settle (s : Shelf α) (record : List α → Shelf α) : Except Failure (List α × String) → Shelf α
  | .ok (items, _) => record items
  | .error _ => s

def Distinct (key : α → String) (s : Shelf α) : Prop := (s.items.map key).Nodup

instance : Decidable (s.Distinct key) := inferInstanceAs (Decidable (s.items.map key).Nodup)

/-- No item that the same process added in the same millisecond is still there. -/
def Clear (s : Shelf α) (stamp : ℕ × ℕ) : Prop :=
  ∀ serial ∈ s.serials, s.additions[serial]? ≠ some stamp

/-- The id was returned by the addition with this number. -/
def Born (kind : String) (s : Shelf α) (id : String) (serial : ℕ) : Prop :=
  ∃ stamp, s.additions[serial]? = some stamp ∧ id = genId kind stamp

/-- The ids are distinct, and each item still has the id that its addition returned. -/
structure Good (key : α → String) (kind : String) (s : Shelf α) : Prop where
  distinct : s.Distinct key
  born : List.Forall₂ (s.Born kind) (s.items.map key) s.serials

/-- Of all items exactly the one that was returned under the id is replaced, or taken out. -/
inductive Touches (key : α → String) (kind : String) (s s' : Shelf α) (id : String)
    (new : Option α) : Prop
  | intro (before after : List α) (item : α) (serial : ℕ) (hitems : s.items = before ++ item :: after)
      (hserial : s.serials[before.length]? = some serial) (hborn : s.Born kind id serial)
      (hkey : key item = id) (hothers : ∀ other ∈ before ++ after, key other ≠ id)
      (hnew : s'.items = before ++ new.toList ++ after)

end Shelf

inductive Op where
  | addReminder (args : AddReminderArgs)
  | updateReminder (args : UpdateReminderArgs)
  | completeReminder (id : String)
  | deleteReminder (id : String)
  | addEvent (args : AddEventArgs)
  | updateEvent (args : UpdateEventArgs)
  | deleteEvent (id : String)

abbrev Call := Caller × Op

structure Sys where
  reminders : Shelf Reminder := {}
  events : Shelf Event := {}

namespace Sys

def step (s : Sys) (call : Call) : Sys :=
  let c := call.1
  let rem := s.reminders
  let evt := s.events
  match call.2 with
  | .addReminder args =>
    { s with reminders := rem.settle (rem.added c.stamp) (addReminder c args rem.items) }
  | .updateReminder args =>
    { s with reminders := rem.settle rem.changed (updateReminder c args rem.items) }
  | .completeReminder id =>
    { s with reminders := rem.settle rem.changed (completeReminder c id rem.items) }
  | .deleteReminder id =>
    let gone := rem.removed Reminder.id (trimString id)
    { s with reminders := rem.settle gone (deleteReminder id rem.items) }
  | .addEvent args =>
    { s with events := evt.settle (evt.added c.stamp) (addEvent c args evt.items) }
  | .updateEvent args => { s with events := evt.settle evt.changed (updateEvent c args evt.items) }
  | .deleteEvent id =>
    let gone := evt.removed Event.id (trimString id)
    { s with events := evt.settle gone (deleteEvent id evt.items) }

def Distinct (s : Sys) : Prop := s.reminders.Distinct Reminder.id ∧ s.events.Distinct Event.id

/-- An addition that is not refused finds no item of its process and its millisecond. -/
def Fresh (s : Sys) (call : Call) : Prop :=
  match call.2 with
  | .addReminder args => trimString args.title ≠ "" → s.reminders.Clear call.1.stamp
  | .addEvent args => trimString args.title ≠ "" → trimString args.startAt ≠ "" →
      s.events.Clear call.1.stamp
  | _ => True

/-- A call by id that succeeds touches the item with this id and nothing else. -/
def TouchesOwn (s : Sys) (call : Call) : Prop :=
  let s' := s.step call
  let rem (id : String) (new : Option Reminder) : Prop :=
    s'.events = s.events ∧ s.reminders.Touches Reminder.id "rem" s'.reminders (trimString id) new
  let evt (id : String) (new : Option Event) : Prop :=
    s'.reminders = s.reminders ∧ s.events.Touches Event.id "evt" s'.events (trimString id) new
  match call.2 with
  | .addReminder _ | .addEvent _ => True
  | .updateReminder args => (updateReminder call.1 args s.reminders.items).isOk →
      ∃ r, r.id = trimString args.id ∧ rem args.id (some r)
  | .completeReminder id => (completeReminder call.1 id s.reminders.items).isOk →
      ∃ r, r.id = trimString id ∧ rem id (some r)
  | .deleteReminder id => (deleteReminder id s.reminders.items).isOk → rem id none
  | .updateEvent args => (updateEvent call.1 args s.events.items).isOk →
      ∃ e, e.id = trimString args.id ∧ evt args.id (some e)
  | .deleteEvent id => (deleteEvent id s.events.items).isOk → evt id none

end Sys

/-! The ids. -/

theorem toList_genId (kind : String) (stamp : ℕ × ℕ) : (genId kind stamp).toList =
    (kind.toList ++ '_' :: Nat.toDigits 10 stamp.1) ++ '_' :: Nat.toDigits 10 stamp.2 := by
  simp [genId, toString, Nat.repr]

theorem genId_inj {other : ℕ × ℕ} (h : genId kind stamp = genId kind other) : stamp = other := by
  have hlist := congrArg String.toList h
  rw [toList_genId, toList_genId] at hlist
  have hdigit : ∀ n, '_' ∉ Nat.toDigits 10 n := fun n => notMem_toDigits n rfl
  obtain ⟨hleft, hmillis⟩ := cut_last_inj (hdigit _) (hdigit _) hlist
  have hpid := (List.cons.inj (append_cancel_left hleft)).2
  exact Prod.ext (toDigits_ten_inj hpid) (toDigits_ten_inj hmillis)

theorem length_removeAll_ne {items : List α} (h : (removeAll key id items).length ≠ items.length) :
    ∃ a, (items.find? fun x => key x == id) = some a := by
  rw [← Option.isSome_iff_exists, find?_isSome]
  by_contra hnone
  push Not at hnone
  refine h (congrArg List.length (filter_eq_self.mpr fun x hx => ?_))
  simpa using hnone x hx

theorem forall₂_filter_zip {R : String → ℕ → Prop} {p : String → Bool} {keys : List String}
    {serials : List ℕ} (h : List.Forall₂ R keys serials) :
    List.Forall₂ R (keys.filter p) (((keys.zip serials).filter fun q => p q.1).map Prod.snd) := by
  induction h with
  | nil => exact List.Forall₂.nil
  | @cons k n keys serials hkn _ ih =>
    cases hp : p k with
    | true => simpa only [filter_cons, hp, if_true, zip_cons_cons, map_cons] using
        List.Forall₂.cons hkn ih
    | false => simpa only [filter_cons, hp, Bool.false_eq_true, if_false,
        zip_cons_cons] using ih

namespace Shelf

variable {items : List α} {item : α}

theorem born_added {serial : ℕ} (h : s.Born kind id serial) :
    (s.added stamp items).Born kind id serial := by
  obtain ⟨old, hold, hid⟩ := h
  refine ⟨old, ?_, hid⟩
  have hlt := (List.getElem?_eq_some_iff.mp hold).1
  exact (getElem?_append_left hlt).trans hold

/-- The ids stay distinct exactly when the file holds no item with the stamp. -/
theorem Good.nodup_append_iff (h : s.Good key kind) (hkey : key item = genId kind stamp) :
    ((s.items ++ [item]).map key).Nodup ↔ s.Clear stamp := by
  have hdistinct : (s.items.map key).Nodup := h.distinct
  rw [map_append, map_singleton, nodup_append_comm, singleton_append,
    nodup_cons, and_iff_left hdistinct]
  constructor
  · intro hfresh serial hserial hstamp
    obtain ⟨id, hid, old, hold, hborn⟩ := exists_of_forall₂ h.born hserial
    obtain rfl : old = stamp := Option.some.inj (hold.symm.trans hstamp)
    exact hfresh (hkey.trans hborn.symm ▸ hid)
  · intro hclear hmem
    obtain ⟨serial, hserial, old, hold, hborn⟩ := exists_of_forall₂ h.born.flip hmem
    obtain rfl := genId_inj (hkey.symm.trans hborn)
    exact hclear serial hserial hold

theorem Good.added (h : s.Good key kind) (hclear : s.Clear stamp)
    (hkey : key item = genId kind stamp) : (s.added stamp (s.items ++ [item])).Good key kind := by
  refine ⟨(h.nodup_append_iff hkey).mpr hclear, ?_⟩
  show List.Forall₂ _ ((s.items ++ [item]).map key) (s.serials ++ [s.additions.length])
  rw [map_append]
  refine rel_append ?_ (List.Forall₂.cons ⟨stamp, ?_, hkey⟩ List.Forall₂.nil)
  · exact h.born.imp fun _ _ => born_added
  · exact getElem?_concat_length

theorem Good.serial (h : s.Good key kind) {before after : List α}
    (hitems : s.items = before ++ item :: after) : ∃ serial,
      s.serials[before.length]? = some serial ∧ s.Born kind (key item) serial := by
  have hlength : before.length < (s.items.map key).length := by simp [hitems]
  have hlt : before.length < s.serials.length := h.born.length_eq ▸ hlength
  refine ⟨_, getElem?_eq_getElem hlt, ?_⟩
  have hborn := h.born.get hlength hlt
  simpa [hitems] using hborn

theorem Good.others (h : s.Good key kind) {before after : List α}
    (hitems : s.items = before ++ item :: after) :
    ∀ other ∈ before ++ after, key other ≠ key item := by
  have hnodup : ((before ++ item :: after).map key).Nodup := hitems ▸ h.distinct
  rw [map_append, map_cons, nodup_middle, nodup_cons, ← map_append]
    at hnodup
  intro other hother heq
  exact hnodup.1 (heq ▸ mem_map_of_mem hother)

theorem Good.changed (h : s.Good key kind) {f : α → α} (hf : ∀ x, key (f x) = key x)
    (hitems : changeFirst key id f s.items = some (items, item)) :
    (s.changed items).Good key kind ∧ key item = id ∧
      s.Touches key kind (s.changed items) id (some item) := by
  obtain ⟨found, hfound, hpair⟩ := Option.map_eq_some_iff.mp hitems
  obtain ⟨before, after, hsplit, hkey, hbefore, -, hreplace⟩ := First.split hfound f
  obtain ⟨rfl, rfl⟩ := Prod.mk.inj hpair
  have hkeys : (before ++ f found :: after).map key = s.items.map key := by
    rw [hsplit, map_append, map_append, map_cons, map_cons, hf]
  obtain ⟨serial, hserial, hborn⟩ := h.serial hsplit
  rw [hreplace]
  refine ⟨⟨?_, ?_⟩, (hf found).trans hkey, ?_⟩
  · exact (congrArg List.Nodup hkeys).mpr h.distinct
  · exact hkeys ▸ h.born
  · subst hkey
    exact .intro before after found serial hsplit hserial hborn rfl (h.others hsplit) (by simp [changed])

theorem Good.removed (h : s.Good key kind) {missing : Failure} {reply out : String}
    (hitems : deleteById key id missing reply s.items = .ok (items, out)) :
    (s.removed key id items).Good key kind ∧
      s.Touches key kind (s.removed key id items) id none := by
  unfold deleteById at hitems
  split_ifs at hitems with hlength
  obtain ⟨rfl, -⟩ := Prod.mk.inj (Except.ok.inj hitems)
  obtain ⟨found, hfound⟩ := length_removeAll_ne hlength
  obtain ⟨before, after, hsplit, hkey, -⟩ := First.split hfound fun x => x
  obtain ⟨serial, hserial, hborn⟩ := h.serial hsplit
  have hothers := h.others hsplit
  have hkeys : (removeAll key id s.items).map key = (s.items.map key).filter fun k => k ≠ id := by
    simp [removeAll, filter_map, Function.comp_def]
  refine ⟨⟨?_, ?_⟩, ?_⟩
  · exact (congrArg List.Nodup hkeys).mpr (h.distinct.filter _)
  · show List.Forall₂ _ ((removeAll key id s.items).map key) _
    rw [hkeys]
    exact forall₂_filter_zip h.born
  · subst hkey
    refine .intro before after found serial hsplit hserial hborn rfl hothers ?_
    have hkept : (before ++ after).filter (fun x => key x ≠ key found) = before ++ after :=
      filter_eq_self.mpr fun x hx => by simpa using hothers x hx
    rw [filter_append] at hkept
    simpa [removed, removeAll, hsplit, filter_append] using hkept

/-- A call that changes the first item with an id. -/
def Changing (key : α → String) (id : String) (items : List α)
    (out : Except Failure (List α × String)) : Prop :=
  ∀ items' reply, out = .ok (items', reply) → ∃ f x, (∀ x, key (f x) = key x) ∧
    changeFirst key id f items = some (items', x)

theorem Good.settle_changed (h : s.Good key kind) {out : Except Failure (List α × String)}
    (hout : Changing key id s.items out) :
    (s.settle s.changed out).Good key kind ∧ (out.isOk →
      ∃ x, key x = id ∧ s.Touches key kind (s.settle s.changed out) id (some x)) := by
  cases out with
  | error e => exact ⟨h, fun hok => absurd hok (by simp [Except.isOk, Except.toBool])⟩
  | ok r =>
    obtain ⟨f, x, hf, hchange⟩ := hout r.1 r.2 rfl
    obtain ⟨hgood, hkey, htouches⟩ := h.changed hf hchange
    exact ⟨hgood, fun _ => ⟨x, hkey, htouches⟩⟩

/-- A call that takes out the items with an id. -/
def Removing (key : α → String) (id : String) (items : List α)
    (out : Except Failure (List α × String)) : Prop :=
  ∀ r, out = .ok r → ∃ missing reply, deleteById key id missing reply items = .ok r

theorem Good.settle_removed (h : s.Good key kind) {out : Except Failure (List α × String)}
    (hout : Removing key id s.items out) :
    (s.settle (s.removed key id) out).Good key kind ∧
      (out.isOk → s.Touches key kind (s.settle (s.removed key id) out) id none) := by
  cases out with
  | error e => exact ⟨h, fun hok => absurd hok (by simp [Except.isOk, Except.toBool])⟩
  | ok r =>
    obtain ⟨missing, reply, hdelete⟩ := hout r rfl
    obtain ⟨hgood, htouches⟩ := h.removed hdelete
    exact ⟨hgood, fun _ => htouches⟩

/-- A call that adds an item, when it is accepted. -/
inductive Adding (key : α → String) (id : String) (items : List α) (accepted : Prop)
    (out : Except Failure (List α × String)) : Prop
  | refused (e : Failure) (hrefused : ¬ accepted) (hout : out = .error e)
  | stored (item : α) (reply : String) (haccepted : accepted) (hkey : key item = id)
      (hout : out = .ok (items ++ [item], reply))

theorem Good.settle_added {accepted : Prop} (h : s.Good key kind)
    {out : Except Failure (List α × String)}
    (hout : Adding key (genId kind stamp) s.items accepted out) (hclear : accepted → s.Clear stamp) :
    (s.settle (s.added stamp) out).Good key kind := by
  cases hout with
  | refused e hrefused hout => exact hout ▸ h
  | stored item reply haccepted hkey hout => exact hout ▸ h.added (hclear haccepted) hkey

theorem Good.not_distinct_added {accepted : Prop} (h : s.Good key kind)
    {out : Except Failure (List α × String)}
    (hout : Adding key (genId kind stamp) s.items accepted out)
    (hclash : ¬ (accepted → s.Clear stamp)) : ¬ (s.settle (s.added stamp) out).Distinct key := by
  push Not at hclash
  obtain ⟨haccepted, hclash⟩ := hclash
  cases hout with
  | refused e hrefused hout => exact absurd haccepted hrefused
  | stored item reply _ hkey hout =>
    subst hout
    exact fun hdistinct => hclash ((h.nodup_append_iff hkey).mp hdistinct)

end Shelf

/-! What each call does with the items. -/

theorem required_eq (field raw : String) :
    (trimString raw = "" ∧ ∃ e, required field raw = .error e) ∨
      (trimString raw ≠ "" ∧ required field raw = .ok (trimString raw)) := by
  unfold required
  by_cases h : trimString raw = ""
  · exact .inl ⟨h, _, by rw [h]; rfl⟩
  · exact .inr ⟨h, if_neg (by simpa using h)⟩

theorem required_ok {field raw text : String} (h : required field raw = .ok text) :
    text = trimString raw := by
  obtain ⟨-, e, he⟩ | ⟨-, hok⟩ := required_eq field raw
  · exact absurd (he.symm.trans h) (by simp)
  · exact (Except.ok.inj (hok.symm.trans h)).symm

theorem adding_addReminder (c : Caller) (args : AddReminderArgs) (items : List Reminder) :
    Shelf.Adding Reminder.id (genId "rem" c.stamp) items (trimString args.title ≠ "")
      (addReminder c args items) := by
  unfold addReminder
  obtain ⟨htitle, e, he⟩ | ⟨htitle, hok⟩ := required_eq "title" args.title
  · rw [he]
    exact .refused e (not_not.mpr htitle) rfl
  · rw [hok]
    exact .stored _ _ htitle rfl rfl

theorem changing_changeById {f : α → α} (hf : ∀ x, key (f x) = key x) (missing : Failure)
    (reply : α → String) (items : List α) :
    Shelf.Changing key id items (changeById key id f missing reply items) := by
  intro items' text h
  unfold changeById at h
  cases hchange : changeFirst key id f items with
  | none =>
    rw [hchange] at h
    cases h
  | some found =>
    rw [hchange] at h
    obtain ⟨rfl, -⟩ := Prod.mk.inj (Except.ok.inj h)
    exact ⟨f, found.2, hf, hchange⟩

theorem changing_completeReminder (c : Caller) (id : String) (items : List Reminder) :
    Shelf.Changing Reminder.id (trimString id) items (completeReminder c id items) := by
  intro items' reply h
  obtain ⟨text, htext, h⟩ := bind_eq_ok.mp h
  obtain rfl := required_ok htext
  exact changing_changeById (by exact fun _ => rfl) _ _ _ _ _ h

theorem id_parseUpdateReminderFields {args : UpdateReminderArgs} {f : UpdateReminderFields}
    (h : parseUpdateReminderFields args = .ok f) : f.id = trimString args.id := by
  obtain ⟨text, htext, h⟩ := bind_eq_ok.mp h
  obtain rfl := required_ok htext
  dsimp only at h
  split_ifs at h
  · cases h
  · rw [← Except.ok.inj h]

theorem changing_updateReminder (c : Caller) (args : UpdateReminderArgs) (items : List Reminder) :
    Shelf.Changing Reminder.id (trimString args.id) items (updateReminder c args items) := by
  intro items' reply h
  obtain ⟨f, hf, h⟩ := bind_eq_ok.mp h
  rw [← id_parseUpdateReminderFields hf]
  exact changing_changeById (by exact fun _ => rfl) _ _ _ _ _ h

theorem removing_deleteReminder (id : String) (items : List Reminder) :
    Shelf.Removing Reminder.id (trimString id) items (deleteReminder id items) := by
  intro r h
  obtain ⟨text, htext, h⟩ := bind_eq_ok.mp h
  obtain rfl := required_ok htext
  exact ⟨_, _, h⟩

theorem adding_addEvent (c : Caller) (args : AddEventArgs) (items : List Event) :
    Shelf.Adding Event.id (genId "evt" c.stamp) items
      (trimString args.title ≠ "" ∧ trimString args.startAt ≠ "") (addEvent c args items) := by
  unfold addEvent prepareNewEvent
  obtain ⟨htitle, e, he⟩ | ⟨htitle, htitleOk⟩ := required_eq "title" args.title
  · rw [he]
    exact .refused e (fun h => h.1 htitle) rfl
  · rw [htitleOk]
    obtain ⟨hstart, e, he⟩ | ⟨hstart, hstartOk⟩ := required_eq "start_at" args.startAt
    · rw [he]
      exact .refused e (fun h => h.2 hstart) rfl
    · rw [hstartOk]
      exact .stored _ _ ⟨htitle, hstart⟩ rfl rfl

theorem changing_updateEvent (c : Caller) (args : UpdateEventArgs) (items : List Event) :
    Shelf.Changing Event.id (trimString args.id) items (updateEvent c args items) := by
  intro items' reply h
  obtain ⟨text, htext, h⟩ := bind_eq_ok.mp h
  obtain rfl := required_ok htext
  dsimp only at h
  split_ifs at h
  · cases h
  · exact changing_changeById (by exact fun _ => rfl) _ _ _ _ _ h

theorem removing_deleteEvent (id : String) (items : List Event) :
    Shelf.Removing Event.id (trimString id) items (deleteEvent id items) := by
  intro r h
  obtain ⟨text, htext, h⟩ := bind_eq_ok.mp h
  obtain rfl := required_ok htext
  exact ⟨_, _, h⟩

/-! Runs. -/

namespace Sys

variable {s : Sys} {call : Call}

structure Good (s : Sys) : Prop where
  reminders : s.reminders.Good Reminder.id "rem"
  events : s.events.Good Event.id "evt"

theorem Good.withReminders (h : s.Good) {rem : Shelf Reminder} (hrem : rem.Good Reminder.id "rem") :
    Good { s with reminders := rem } := ⟨hrem, h.events⟩

theorem Good.withEvents (h : s.Good) {evt : Shelf Event} (hevt : evt.Good Event.id "evt") :
    Good { s with events := evt } := ⟨h.reminders, hevt⟩

theorem good_step (h : s.Good) (hfresh : s.Fresh call) : (s.step call).Good := by
  obtain ⟨c, op⟩ := call
  cases op with
  | addReminder args =>
    dsimp only [Fresh] at hfresh
    dsimp only [step]
    exact h.withReminders (h.reminders.settle_added (adding_addReminder c args _) hfresh)
  | updateReminder args =>
    dsimp only [step]
    exact h.withReminders (h.reminders.settle_changed (changing_updateReminder c args _)).1
  | completeReminder id =>
    dsimp only [step]
    exact h.withReminders (h.reminders.settle_changed (changing_completeReminder c id _)).1
  | deleteReminder id =>
    dsimp only [step]
    exact h.withReminders (h.reminders.settle_removed (removing_deleteReminder id _)).1
  | addEvent args =>
    dsimp only [Fresh] at hfresh
    rw [← and_imp] at hfresh
    dsimp only [step]
    exact h.withEvents (h.events.settle_added (adding_addEvent c args _) hfresh)
  | updateEvent args =>
    dsimp only [step]
    exact h.withEvents (h.events.settle_changed (changing_updateEvent c args _)).1
  | deleteEvent id =>
    dsimp only [step]
    exact h.withEvents (h.events.settle_removed (removing_deleteEvent id _)).1

theorem Good.touchesOwn (h : s.Good) (call : Call) : s.TouchesOwn call := by
  obtain ⟨c, op⟩ := call
  cases op with
  | addReminder args => trivial
  | updateReminder args =>
    dsimp only [TouchesOwn, step]
    intro hok
    obtain ⟨r, hr, htouches⟩ :=
      (h.reminders.settle_changed (changing_updateReminder c args _)).2 hok
    exact ⟨r, hr, rfl, htouches⟩
  | completeReminder id =>
    dsimp only [TouchesOwn, step]
    intro hok
    obtain ⟨r, hr, htouches⟩ :=
      (h.reminders.settle_changed (changing_completeReminder c id _)).2 hok
    exact ⟨r, hr, rfl, htouches⟩
  | deleteReminder id =>
    dsimp only [TouchesOwn, step]
    exact fun hok => ⟨rfl, (h.reminders.settle_removed (removing_deleteReminder id _)).2 hok⟩
  | addEvent args => trivial
  | updateEvent args =>
    dsimp only [TouchesOwn, step]
    intro hok
    obtain ⟨e, he, htouches⟩ := (h.events.settle_changed (changing_updateEvent c args _)).2 hok
    exact ⟨e, he, rfl, htouches⟩
  | deleteEvent id =>
    dsimp only [TouchesOwn, step]
    exact fun hok => ⟨rfl, (h.events.settle_removed (removing_deleteEvent id _)).2 hok⟩

theorem Good.not_distinct_step (h : s.Good) (hfresh : ¬ s.Fresh call) :
    ¬ (s.step call).Distinct := by
  obtain ⟨c, op⟩ := call
  cases op with
  | addReminder args =>
    dsimp only [Fresh] at hfresh
    dsimp only [Distinct, step]
    exact fun hdistinct => h.reminders.not_distinct_added (adding_addReminder c args _) hfresh
      hdistinct.1
  | addEvent args =>
    dsimp only [Fresh] at hfresh
    dsimp only [Distinct, step]
    rw [← and_imp] at hfresh
    exact fun hdistinct => h.events.not_distinct_added (adding_addEvent c args _) hfresh hdistinct.2
  | updateReminder args => exact absurd trivial hfresh
  | completeReminder id => exact absurd trivial hfresh
  | deleteReminder id => exact absurd trivial hfresh
  | updateEvent args => exact absurd trivial hfresh
  | deleteEvent id => exact absurd trivial hfresh

theorem good_init : Good {} :=
  ⟨⟨nodup_nil, List.Forall₂.nil⟩, ⟨nodup_nil, List.Forall₂.nil⟩⟩

/-- In every state that the run reaches the ids are distinct, and each call by id touches its own
item and nothing else. -/
def KeepsIds (calls : List Call) : Prop :=
  ∀ before after, calls = before ++ after → (Run.run step {} before).Distinct ∧
    ∀ call ∈ after.head?, (Run.run step {} before).TouchesOwn call

end Sys

/-- The ids stay distinct, in a run with any clock and any processes, exactly when no process adds
an item in a millisecond of which it has another one in the same file. -/
theorem keepsIds_iff (calls : List Call) :
    Sys.KeepsIds calls ↔ Run.AllOk Sys.step Sys.Fresh {} calls := by
  constructor
  · intro hkeeps
    by_contra hbad
    obtain ⟨before, call, after, rfl, hbefore, hcall⟩ := Run.exists_first_bad _ _ hbad
    have hgood : (Run.run Sys.step {} before).Good :=
      Run.invariant (fun _ _ => Sys.good_step) Sys.good_init hbefore
    have hdistinct := (hkeeps (before ++ [call]) after (by simp)).1
    rw [Run.run_append] at hdistinct
    exact hgood.not_distinct_step hcall hdistinct
  · rintro hfresh before after rfl
    have hbefore := ((Run.allOk_append _ _ _ _ _).mp hfresh).1
    have hgood : (Run.run Sys.step {} before).Good :=
      Run.invariant (fun _ _ => Sys.good_step) Sys.good_init hbefore
    exact ⟨⟨hgood.reminders.distinct, hgood.events.distinct⟩, fun call _ => hgood.touchesOwn call⟩

/-- One process adds two reminders within a millisecond; the deletion of one takes both. -/
def twinCalls : List Call :=
  let c : Caller := { pid := 7, millis := 1000 }
  [(c, .addReminder { title := "买牛奶" }), (c, .addReminder { title := "买面包" }),
    (c, .deleteReminder "rem_7_1000")]

theorem twins_deleted_together : (twinCalls.map fun call => call.1.millis).Pairwise (· ≤ ·) ∧
    (Run.run Sys.step {} twinCalls).reminders.items = [] ∧ ¬ Sys.KeepsIds twinCalls := by
  refine ⟨by decide +kernel, by decide +kernel, fun hkeeps => ?_⟩
  have hdistinct := (hkeeps (twinCalls.take 2) (twinCalls.drop 2) rfl).1.1
  exact absurd hdistinct (by decide +kernel)

end CrabMate.Schedule
