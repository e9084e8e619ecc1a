import CrabMate.Structured.Pointer

/-! Tables with a header row as objects: the names of the columns are made into keys by counting
the repetitions of a name. -/
namespace CrabMate.Structured
open List

open RustStr (Str)

/-- The name of a column: a blank one is named by its position. -/
def columnName (i : ℕ) (h : Str) : Str :=
  if (RustStr.trim h).isEmpty then "column_".toList ++ indexText i else RustStr.trim h

/-- The key of a column, for the number of columns so far with its name. -/
def columnKey (base : Str) (n : ℕ) : Str :=
  if n = 1 then base else base ++ "__".toList ++ indexText n

/-- The loop of `unique_header_keys`, from column `i` on. -/
def headerKeysFrom : ℕ → List Str → List (Str × ℕ) → List Str
  | _, [], _ => []
  | i, h :: header, seen =>
    let base := columnName i h
    let n := (OrdMap.get base seen).getD 0 + 1
    columnKey base n :: headerKeysFrom (i + 1) header (OrdMap.insert base n seen)

def uniqueHeaderKeys (header : List Str) : List Str := headerKeysFrom 0 header []

/-- The cells of a row under their keys; a missing cell is empty. -/
def rowEntries (keys rec : List Str) : List (Str × Value) :=
  keys.zipIdx.map fun k => (k.1, .string (rec.getD k.2 []))

def rowObject (keys rec : List Str) : List (Str × Value) :=
  OrdMap.insertAll (rowEntries keys rec) []

/-! The keys. -/

def columnNamesFrom (i : ℕ) (header : List Str) : List Str :=
  (header.zipIdx i).map fun h => columnName h.2 h.1

def columnNames (header : List Str) : List Str := columnNamesFrom 0 header

/-- Every name with the number of its occurrence; `before` are the names in front. -/
def occurrences : List Str → List Str → List (Str × ℕ)
  | _, [] => []
  | before, b :: names => (b, before.count b + 1) :: occurrences (b :: before) names

section Keys

variable {b c : Str} {n m i : ℕ} {names before header : List Str} {seen : List (Str × ℕ)}

theorem columnNamesFrom_cons (i : ℕ) (h : Str) (header : List Str) :
    columnNamesFrom i (h :: header) = columnName i h :: columnNamesFrom (i + 1) header := by
  rw [columnNamesFrom, zipIdx_cons, map_cons, columnNamesFrom]

theorem headerKeysFrom_eq (hseen : ∀ b, (OrdMap.get b seen).getD 0 = before.count b) :
    headerKeysFrom i header seen =
      (occurrences before (columnNamesFrom i header)).map fun o => columnKey o.1 o.2 := by
  induction header generalizing i before seen with
  | nil => rfl
  | cons h header ih =>
    rw [columnNamesFrom_cons, occurrences, map_cons, headerKeysFrom, hseen]
    congr 1
    apply ih
    intro c
    by_cases hc : c = columnName i h
    · subst hc
      rw [OrdMap.get_insert_self, count_cons_self, Option.getD_some]
    · rw [OrdMap.get_insert_ne hc, count_cons_of_ne (Ne.symm hc), hseen]

theorem uniqueHeaderKeys_eq (header : List Str) :
    uniqueHeaderKeys header =
      (occurrences [] (columnNames header)).map fun o => columnKey o.1 o.2 :=
  headerKeysFrom_eq fun _ => rfl

theorem mem_occurrences {o : Str × ℕ} : o ∈ occurrences before names ↔
    before.count o.1 < o.2 ∧ o.2 ≤ before.count o.1 + names.count o.1 := by
  induction names generalizing before with
  | nil =>
    simp only [occurrences, not_mem_nil, count_nil, false_iff]
    omega
  | cons b names ih =>
    obtain ⟨c, n⟩ := o
    rw [occurrences, mem_cons, ih]
    by_cases hc : c = b
    · subst hc
      simp only [count_cons_self, Prod.mk.injEq, true_and]
      omega
    · simp only [count_cons_of_ne (Ne.symm hc), Prod.mk.injEq, hc, false_and, false_or]

theorem nodup_occurrences (before names : List Str) : (occurrences before names).Nodup := by
  induction names generalizing before with
  | nil => exact nodup_nil
  | cons b names ih =>
    refine nodup_cons.mpr ⟨fun hmem => ?_, ih (b :: before)⟩
    have hlt : (b :: before).count b < before.count b + 1 := (mem_occurrences.mp hmem).1
    rw [count_cons_self] at hlt
    omega

theorem length_occurrences (before names : List Str) :
    (occurrences before names).length = names.length := by
  induction names generalizing before with
  | nil => rfl
  | cons b names ih => rw [occurrences, length_cons, ih, length_cons]

/-- Two texts are cut alike at a character that neither has behind its own cut. -/
theorem append_cons_inj {x y u v : Str} {a : Char} (hu : a ∉ u) (hv : a ∉ v)
    (h : x ++ a :: u = y ++ a :: v) : x = y ∧ u = v := by
  induction x generalizing y with
  | nil =>
    cases y with
    | nil => exact ⟨rfl, (List.cons.inj h).2⟩
    | cons d y =>
      have htail : u = y ++ a :: v := (List.cons.inj h).2
      exact absurd (htail ▸ mem_append_right y mem_cons_self) hu
  | cons d x ih =>
    cases y with
    | nil =>
      have htail : x ++ a :: u = v := (List.cons.inj h).2
      exact absurd (htail ▸ mem_append_right x mem_cons_self) hv
    | cons e y =>
      obtain ⟨rfl, htail⟩ := List.cons.inj h
      obtain ⟨rfl, huv⟩ := ih htail
      exact ⟨rfl, huv⟩

theorem indexText_inj (h : indexText n = indexText m) : n = m := by
  rw [indexText_eq, indexText_eq] at h
  have hvalue := congrArg (Nat.ofDigitChars 10 · 0) h
  simpa only [Nat.ofDigitChars_ten_toDigits] using hvalue

theorem underscore_notMem_indexText (n : ℕ) : '_' ∉ indexText n := by
  intro h
  exact absurd (isDigit_of_mem_indexText h) (by decide)

theorem suffixed_inj (h : b ++ "__".toList ++ indexText n = c ++ "__".toList ++ indexText m) :
    b = c ∧ n = m := by
  have hcut : (b ++ ['_']) ++ '_' :: indexText n = (c ++ ['_']) ++ '_' :: indexText m := by
    simpa using h
  obtain ⟨hbase, hnum⟩ := append_cons_inj (underscore_notMem_indexText n)
    (underscore_notMem_indexText m) hcut
  exact ⟨append_cancel_right hbase, indexText_inj hnum⟩

/-- Keys of two columns coincide only where a name is another name with its suffix. -/
theorem columnKey_eq (h : columnKey b n = columnKey c m) :
    (b = c ∧ n = m) ∨ (m ≠ 1 ∧ b = c ++ "__".toList ++ indexText m) ∨
      (n ≠ 1 ∧ c = b ++ "__".toList ++ indexText n) := by
  by_cases hn : n = 1
  · by_cases hm : m = 1
    · rw [columnKey, columnKey, if_pos hn, if_pos hm] at h
      exact .inl ⟨h, hn.trans hm.symm⟩
    · rw [columnKey, columnKey, if_pos hn, if_neg hm] at h
      exact .inr (.inl ⟨hm, h⟩)
  · by_cases hm : m = 1
    · rw [columnKey, columnKey, if_neg hn, if_pos hm] at h
      exact .inr (.inr ⟨hn, h.symm⟩)
    · rw [columnKey, columnKey, if_neg hn, if_neg hm] at h
      exact .inl (suffixed_inj h)

/-- No name is another one followed by `__n`, for an `n` up to the repetitions of that name. -/
def NoSuffixClash (header : List Str) : Prop :=
  ∀ base ∈ columnNames header, ∀ n, 2 ≤ n → n ≤ (columnNames header).count base →
    base ++ "__".toList ++ indexText n ∉ columnNames header

theorem nodup_uniqueHeaderKeys_iff (header : List Str) :
    (uniqueHeaderKeys header).Nodup ↔ NoSuffixClash header := by
  rw [uniqueHeaderKeys_eq]
  constructor
  · intro hnodup base _ n htwo hn hmem
    have hinj := inj_on_of_nodup_map hnodup
    have hfirst : (base ++ "__".toList ++ indexText n, 1) ∈ occurrences [] (columnNames header) :=
      mem_occurrences.mpr ⟨by simp, by simpa using count_pos_iff.mpr hmem⟩
    have hnth : (base, n) ∈ occurrences [] (columnNames header) :=
      mem_occurrences.mpr ⟨by simp; omega, by simpa using hn⟩
    have heq := hinj hfirst hnth (by simp [columnKey, show n ≠ 1 by omega])
    have : (1 : ℕ) = n := (Prod.mk.inj heq).2
    omega
  · intro hclash
    refine List.Nodup.map_on ?_ (nodup_occurrences [] _)
    rintro ⟨b, n⟩ hb ⟨c, m⟩ hc heq
    obtain ⟨hn, hnb⟩ := mem_occurrences.mp hb
    obtain ⟨hm, hmc⟩ := mem_occurrences.mp hc
    simp only [count_nil, Nat.zero_add] at hn hnb hm hmc
    have hbmem : b ∈ columnNames header := count_pos_iff.mp (by omega)
    have hcmem : c ∈ columnNames header := count_pos_iff.mp (by omega)
    obtain ⟨rfl, rfl⟩ | ⟨hm1, hbc⟩ | ⟨hn1, hcb⟩ := columnKey_eq heq
    · rfl
    · exact absurd (hbc ▸ hbmem) (hclash c hcmem m (by omega) hmc)
    · exact absurd (hcb ▸ hcmem) (hclash b hbmem n (by omega) hnb)

end Keys

/-! The rows. -/

section Rows

variable {header rec keys : List Str} {i : ℕ}

theorem keys_rowEntries (keys rec : List Str) : (rowEntries keys rec).map Prod.fst = keys := by
  rw [rowEntries, map_map]
  exact zipIdx_map_fst 0 keys

theorem length_rowObject_iff (keys rec : List Str) :
    (rowObject keys rec).length = keys.length ↔ keys.Nodup := by
  have hlen : (rowEntries keys rec).length = keys.length := by simp [rowEntries]
  have hiff := OrdMap.length_insertAll_iff (rowEntries keys rec)
  rwa [keys_rowEntries, hlen] at hiff

theorem get_rowObject (hnodup : keys.Nodup) (hi : i < keys.length) (hrec : i < rec.length) :
    OrdMap.get keys[i] (rowObject keys rec) = some (.string rec[i]) := by
  rw [rowObject]
  refine OrdMap.get_insertAll_of_mem ((keys_rowEntries keys rec).symm ▸ hnodup) ?_ []
  refine mem_map.mpr ⟨(keys[i], i), ?_, ?_⟩
  · exact mem_zipIdx_iff_getElem?.mpr (getElem?_eq_getElem hi)
  · rw [getD_eq_getElem?_getD, getElem?_eq_getElem hrec, Option.getD_some]

theorem length_uniqueHeaderKeys (header : List Str) :
    (uniqueHeaderKeys header).length = header.length := by
  rw [uniqueHeaderKeys_eq, List.length_map, length_occurrences, columnNames, columnNamesFrom,
    List.length_map, length_zipIdx]

/-- The object of a row has a key for every column and holds every cell exactly when no column is
named like a repetition of another one. -/
theorem rowObject_complete_iff (header rec : List Str) (hrec : rec.length ≤ header.length) :
    ((rowObject (uniqueHeaderKeys header) rec).length = header.length ∧
      (uniqueHeaderKeys header).Nodup ∧
      ∀ (i : ℕ) (hi : i < rec.length),
        OrdMap.get ((uniqueHeaderKeys header).getD i [])
          (rowObject (uniqueHeaderKeys header) rec) = some (.string rec[i])) ↔
      NoSuffixClash header := by
  rw [← nodup_uniqueHeaderKeys_iff, ← length_uniqueHeaderKeys header, length_rowObject_iff]
  constructor
  · exact fun h => h.1
  · intro hnodup
    refine ⟨hnodup, hnodup, fun i hi => ?_⟩
    have hi' : i < (uniqueHeaderKeys header).length := by
      rw [length_uniqueHeaderKeys]
      omega
    rw [getD_eq_getElem?_getD, getElem?_eq_getElem hi', Option.getD_some]
    exact get_rowObject hnodup hi' hi

theorem rowObject_complete_iff_repeated :
    ((rowObject (uniqueHeaderKeys ["a".toList, "a".toList]) ["1".toList]).length = 2 ∧
      (uniqueHeaderKeys ["a".toList, "a".toList]).Nodup ∧
      ∀ (i : ℕ) (hi : i < ["1".toList].length),
        OrdMap.get ((uniqueHeaderKeys ["a".toList, "a".toList]).getD i [])
          (rowObject (uniqueHeaderKeys ["a".toList, "a".toList]) ["1".toList]) =
            some (.string ["1".toList][i])) ↔
      NoSuffixClash ["a".toList, "a".toList] :=
  rowObject_complete_iff ["a".toList, "a".toList] ["1".toList] (by decide)

/-- The second `a` takes the key of the column `a__2`. -/
theorem not_uniqueHeaderKeys_nodup :
    ¬ ∀ header rec : List Str, rec.length ≤ header.length →
      (uniqueHeaderKeys header).Nodup ∧
        (rowObject (uniqueHeaderKeys header) rec).length = header.length := by
  intro h
  have hnodup := (h ["a".toList, "a".toList, "a__2".toList] [] (by decide)).1
  revert hnodup
  decide

end Rows

end CrabMate.Structured
