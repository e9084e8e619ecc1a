import CrabMate.Lib.First
import CrabMate.Lib.Run
import CrabMate.Lib.Separated
import CrabMate.Lib.Str

/-! Reminders and events, each kept in one JSON file of the workspace. The ids are made from the
process and the clock, and every later call trusts them as keys. -/
namespace CrabMate.Schedule

open RustStr (trimString)

structure Reminder where
  id : String
  title : String
  dueAt : Option String
  done : Bool
  createdAt : String
  updatedAt : Option String
  deriving DecidableEq

structure Event where
  id : String
  title : String
  startAt : String
  endAt : Option String
  location : Option String
  notes : Option String
  createdAt : String
  updatedAt : Option String
  deriving DecidableEq

structure Failure where
  code : String
  message : String
  deriving DecidableEq

def Failure.invalidArgs (message : String) : Failure := ⟨"invalid_args", message⟩

/-- The process that carries out a call, the clock it reads, and how it reads a date that somebody
wrote: that depends on its time zone. -/
structure Caller where
  pid : ℕ
  millis : ℕ
  now : String := ""
  datetime : String → Option String := fun _ => none

/-- What the id of an item is made from. -/
def Caller.stamp (c : Caller) : ℕ × ℕ := (c.pid, c.millis)

/-- `gen_id`. -/
def genId (kind : String) (stamp : ℕ × ℕ) : String := s!"{kind}_{stamp.1}_{stamp.2}"

def parseDatetimeToRfc3339 (c : Caller) (s : String) : Option String :=
  if (trimString s).isEmpty then none else c.datetime (trimString s)

/-- A required text is trimmed and must not be empty. -/
def required (field raw : String) : Except Failure String :=
  if (trimString raw).isEmpty then .error (.invalidArgs s!"错误：缺少 {field} 参数")
  else .ok (trimString raw)

def optional (raw : Option String) : Option String :=
  (raw.map trimString).filter fun s => !s.isEmpty

/-- A date that cannot be read is kept as it was written; an empty one means none. -/
def normalizedDate (c : Caller) (raw : String) : Option String :=
  if (trimString raw).isEmpty then none
  else some ((parseDatetimeToRfc3339 c (trimString raw)).getD (trimString raw))

section Items

variable {α : Type} (key : α → String) (id : String)

/-- The loop over the items that stops at the first one with the id. -/
def changeFirst (f : α → α) (items : List α) : Option (List α × α) :=
  (items.find? fun x => key x == id).map fun found =>
    (items.replaceF fun x => if key x = id then some (f x) else none, f found)

/-- `retain`: every item with the id goes. -/
def removeAll (items : List α) : List α := items.filter fun x => key x ≠ id

/-- Writes to the first item with the id. -/
def changeById (f : α → α) (missing : Failure) (reply : α → String) (items : List α) :
    Except Failure (List α × String) :=
  match changeFirst key id f items with
  | some (items, x) => .ok (items, reply x)
  | none => .error missing

def deleteById (missing : Failure) (reply : String) (items : List α) :
    Except Failure (List α × String) :=
  if (removeAll key id items).length = items.length then .error missing
  else .ok (removeAll key id items, reply)

end Items

/-! Reminders. -/

def reminderNotFound (id : String) : Failure := ⟨"reminder_not_found", s!"未找到提醒：id={id}"⟩

structure AddReminderArgs where
  title : String
  dueAt : Option String := none

structure UpdateReminderArgs where
  id : String
  title : Option String := none
  dueAt : Option String := none
  done : Option Bool := none

def addReminder (c : Caller) (args : AddReminderArgs) (items : List Reminder) :
    Except Failure (List Reminder × String) := do
  let title ← required "title" args.title
  let item : Reminder :=
    { id := genId "rem" c.stamp, title, dueAt := normalizedDate c (args.dueAt.getD ""),
      done := false, createdAt := c.now, updatedAt := none }
  pure (items ++ [item], s!"已添加提醒：{item.title}（id={item.id}）")

def completeReminder (c : Caller) (id : String) (items : List Reminder) :
    Except Failure (List Reminder × String) := do
  let id ← required "id" id
  changeById Reminder.id id (fun r => { r with done := true, updatedAt := some c.now })
    (reminderNotFound id) (fun r => s!"已完成提醒：{r.title}（id={id}）") items

structure UpdateReminderFields where
  id : String
  title : Option String
  dueAt : Option String
  done : Option Bool

def parseUpdateReminderFields (args : UpdateReminderArgs) : Except Failure UpdateReminderFields := do
  let id ← required "id" args.id
  let title := optional args.title
  let dueAt := args.dueAt.map trimString
  if title.isNone && dueAt.isNone && args.done.isNone then
    throw (.invalidArgs "错误：至少提供 title/due_at/done 中的一个用于更新")
  pure { id, title, dueAt, done := args.done }

def applyUpdateReminderFields (c : Caller) (f : UpdateReminderFields) (r : Reminder) : Reminder :=
  { r with
    title := f.title.getD r.title
    dueAt := f.dueAt.elim r.dueAt (normalizedDate c)
    done := f.done.getD r.done
    updatedAt := some c.now }

def updateReminder (c : Caller) (args : UpdateReminderArgs) (items : List Reminder) :
    Except Failure (List Reminder × String) := do
  let f ← parseUpdateReminderFields args
  changeById Reminder.id f.id (applyUpdateReminderFields c f) (reminderNotFound f.id)
    (fun r => s!"已更新提醒：{r.title}（id={f.id}）") items

def deleteReminder (id : String) (items : List Reminder) :
    Except Failure (List Reminder × String) := do
  let id ← required "id" id
  deleteById Reminder.id id (reminderNotFound id) s!"已删除提醒：id={id}" items

/-! Events. -/

def eventNotFound (id : String) : Failure := ⟨"event_not_found", s!"未找到日程：id={id}"⟩

structure AddEventArgs where
  title : String
  startAt : String
  endAt : Option String := none
  location : Option String := none
  notes : Option String := none

structure UpdateEventArgs where
  id : String
  title : Option String := none
  startAt : Option String := none
  endAt : Option String := none
  location : Option String := none
  notes : Option String := none

def prepareNewEvent (c : Caller) (args : AddEventArgs) : Except Failure Event := do
  let title ← required "title" args.title
  let startRaw ← required "start_at" args.startAt
  pure { id := genId "evt" c.stamp, title,
         startAt := (parseDatetimeToRfc3339 c startRaw).getD startRaw,
         endAt := normalizedDate c (args.endAt.getD ""), location := optional args.location,
         notes := optional args.notes, createdAt := c.now, updatedAt := none }

def addEvent (c : Caller) (args : AddEventArgs) (items : List Event) :
    Except Failure (List Event × String) := do
  let item ← prepareNewEvent c args
  pure (items ++ [item], s!"已添加日程：{item.title}（id={item.id}）")

structure EventUpdateFields where
  title : Option String
  startAt : Option String
  endAt : Option String
  location : Option String
  notes : Option String

def eventUpdateFieldsFromArgs (args : UpdateEventArgs) : EventUpdateFields where
  title := optional args.title
  startAt := args.startAt.map trimString
  endAt := args.endAt.map trimString
  location := args.location.map trimString
  notes := args.notes.map trimString

def eventUpdateFieldsAnySet (patch : EventUpdateFields) : Bool :=
  patch.title.isSome || patch.startAt.isSome || patch.endAt.isSome || patch.location.isSome ||
    patch.notes.isSome

/-- An empty start means no change. -/
def applyEventStartAt (c : Caller) (value : Option String) (old : String) : String :=
  value.elim old fun s =>
    if (trimString s).isEmpty then old
    else (parseDatetimeToRfc3339 c (trimString s)).getD (trimString s)

/-- An empty text clears the field. The end of an event is stored as it was written. -/
def applyEventClearableText (value old : Option String) : Option String :=
  value.elim old fun s => if (trimString s).isEmpty then none else some (trimString s)

def applyEventUpdates (c : Caller) (patch : EventUpdateFields) (e : Event) : Event :=
  { e with
    title := patch.title.getD e.title
    startAt := applyEventStartAt c patch.startAt e.startAt
    endAt := applyEventClearableText patch.endAt e.endAt
    location := applyEventClearableText patch.location e.location
    notes := applyEventClearableText patch.notes e.notes
    updatedAt := some c.now }

def updateEvent (c : Caller) (args : UpdateEventArgs) (items : List Event) :
    Except Failure (List Event × String) := do
  let id ← required "id" args.id
  let patch := eventUpdateFieldsFromArgs args
  if !eventUpdateFieldsAnySet patch then
    throw (.invalidArgs "错误：至少提供 title/start_at/end_at/location/notes 中的一个用于更新")
  changeById Event.id id (applyEventUpdates c patch) (eventNotFound id)
    (fun e => s!"已更新日程：{e.title}（id={id}）") items

def deleteEvent (id : String) (items : List Event) : Except Failure (List Event × String) := do
  let id ← required "id" id
  deleteById Event.id id (eventNotFound id) s!"已删除日程：id={id}" items

end CrabMate.Schedule
