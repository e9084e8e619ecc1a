import CrabMate.Lib.Search
import CrabMate.Structured.Value
import CrabMate.Workflow.Model

/-! Queries into structured data: a JSON Pointer when the query begins with `/`, a dotted path
otherwise. Reading and patching split the query with code of their own. -/
namespace CrabMate.Structured
open Option

open RustStr (Str)

open Workflow (parseUsize replaceFrom)

/-- `str::replace`. -/
def replaceAll (s needle item : Str) : Str := replaceFrom needle item 0 s

def jsonPointerEscape (s : Str) : Str :=
  replaceAll (replaceAll s "~".toList "~0".toList) "/".toList "~1".toList

def jsonPointerUnescape (s : Str) : Str :=
  replaceAll (replaceAll s "~1".toList "/".toList) "~0".toList "~".toList

/-! Reading. -/

/-- The array index of a pointer token: no sign, and no zero before other digits. -/
def parseIndex (s : Str) : Option ℕ :=
  if RustStr.startsWith ['+'] s || (RustStr.startsWith ['0'] s && s.length ≠ 1) then none
  else parseUsize s

namespace Value

def pointerStep (v : Value) (token : Str) : Option Value :=
  match v with
  | .object fields => OrdMap.get token fields
  | .array xs => (parseIndex token).bind fun i => xs[i]?
  | _ => none

/-- `Value::pointer`. -/
def pointer (v : Value) (p : Str) : Option Value :=
  if p.isEmpty then some v
  else if !RustStr.startsWith ['/'] p then none
  else (((p.splitOn '/').drop 1).map jsonPointerUnescape).foldlM pointerStep v

def dottedStep (v : Value) (seg : Str) : Option Value :=
  match parseUsize seg with
  | some i => v.child? (.index i)
  | none => v.child? (.key seg)

end Value

def resolveQueryPath (v : Value) (query : Str) : Option Value :=
  let q := RustStr.trim query
  if q.isEmpty then some v
  else if RustStr.startsWith ['/'] q then v.pointer q
  else ((q.splitOn '.').filter fun s => !s.isEmpty).foldlM Value.dottedStep v

/-! Patching. -/

def maxSegmentBytes : ℕ := 256

def patchQueryParts (query : Str) : List Str :=
  let q := RustStr.trim query
  if q.isEmpty then []
  else if RustStr.startsWith ['/'] q then ((q.splitOn '/').drop 1).map jsonPointerUnescape
  else (q.splitOn '.').filter fun s => !s.isEmpty

def parsePatchQueryTokens (query : Str) : Except Str (List Str) :=
  let parts := patchQueryParts query
  if parts.any fun s => RustStr.utf8Len s > maxSegmentBytes then
    .error "query 路径片段过长（单段最多 256 字符）".toList
  else .ok parts

/-! The two readings of a segment. -/

/-- How a query is written. -/
inductive Notation where
  | pointer
  | dotted
  deriving DecidableEq

def queryNotation (query : Str) : Notation :=
  if RustStr.startsWith ['/'] (RustStr.trim query) then .pointer else .dotted

/-- The step a reader takes at a value for a segment. -/
def readStep : Notation → Str → Value → Option Step
  | .pointer, seg, .array _ => (parseIndex seg).map .index
  | .pointer, seg, _ => some (.key seg)
  | .dotted, seg, _ =>
    match parseUsize seg with
    | some i => some (.index i)
    | none => some (.key seg)

/-- Follows the segments of a query. -/
def readSegments (notn : Notation) : List Str → Value → Option Value
  | [], v => some v
  | seg :: segs, v =>
    (readStep notn seg v).bind fun s => (v.child? s).bind (readSegments notn segs)

/-- The place a query arrives at. -/
def readPlace (notn : Notation) : List Str → Value → Option (List Step)
  | [], _ => some []
  | seg :: segs, v =>
    (readStep notn seg v).bind fun s =>
      (v.child? s).bind fun c => (readPlace notn segs c).map (s :: ·)

section Reading

variable {notn : Notation} {v : Value} {seg query : Str} {segs tokens : List Str}

theorem pointerStep_eq (v : Value) (seg : Str) :
    v.pointerStep seg = (readStep .pointer seg v).bind v.child? := by
  cases v with
  | array xs => cases h : parseIndex seg <;> simp [Value.pointerStep, readStep, h]
  | _ => rfl

theorem dottedStep_eq (v : Value) (seg : Str) :
    v.dottedStep seg = (readStep .dotted seg v).bind v.child? := by
  cases h : parseUsize seg <;> simp [Value.dottedStep, readStep, h]

theorem foldlM_eq_readSegments (get : Value → Str → Option Value)
    (hget : ∀ v seg, get v seg = (readStep notn seg v).bind v.child?) (segs : List Str)
    (v : Value) : segs.foldlM get v = readSegments notn segs v := by
  induction segs generalizing v with
  | nil => rfl
  | cons seg segs ih =>
    rw [List.foldlM_cons, hget, readSegments, bind_eq_bind, bind_assoc]
    exact Option.bind_congr fun s _ => Option.bind_congr fun c _ => ih c

theorem patchQueryParts_of_ok (h : parsePatchQueryTokens query = .ok tokens) :
    patchQueryParts query = tokens := by
  simp only [parsePatchQueryTokens] at h
  split at h
  · cases h
  · exact Except.ok.inj h

/-- The reader follows the segments that the writer splits off. -/
theorem resolveQueryPath_eq (query : Str) (v : Value) :
    resolveQueryPath v query = readSegments (queryNotation query) (patchQueryParts query) v := by
  rw [resolveQueryPath, queryNotation, patchQueryParts]
  by_cases hempty : (RustStr.trim query).isEmpty = true
  · simp [hempty, readSegments]
  by_cases hslash : RustStr.startsWith ['/'] (RustStr.trim query) = true
  · simp only [hempty, hslash, if_true, Value.pointer, Bool.not_true, Bool.false_eq_true, if_false]
    exact foldlM_eq_readSegments _ pointerStep_eq _ v
  · simp only [hempty, hslash, Bool.false_eq_true, if_false]
    exact foldlM_eq_readSegments _ dottedStep_eq _ v

theorem readSegments_eq_at? (notn : Notation) (segs : List Str) (v : Value) :
    readSegments notn segs v = (readPlace notn segs v).bind fun p => v.at? p := by
  induction segs generalizing v with
  | nil => rfl
  | cons seg segs ih =>
    rw [readSegments, readPlace, bind_assoc]
    refine Option.bind_congr fun s _ => ?_
    rw [bind_assoc]
    refine Option.bind_congr fun c hc => ?_
    rw [ih, bind_map]
    refine Option.bind_congr fun p _ => ?_
    rw [Function.comp, Value.at?_cons, hc, bind_some]

end Reading

end CrabMate.Structured
