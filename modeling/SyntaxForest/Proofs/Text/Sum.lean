import Mathlib.Algebra.GroupWithZero.Nat
import Mathlib.Data.List.SplitBy
import Mathlib.Data.List.TakeWhile
import SyntaxForest.Proofs.Text.Residual

/-! # Sums of spans

The column of a sum starts over at every line break, so a list of spans falls into runs that a break
can only begin. Bytes and rows of the list add up, the columns add up inside each run, and the sum
ends in the column of the last run. It is missing just where one of these numbers is no word, be it
in a run that a later break would have forgotten.
-/

namespace SyntaxForest.Span

variable {a b c total : Span} {spans rest : List Span}

/-- No line break, so that what follows stays in the same run. -/
def isFlat (span : Span) : Bool := span.extent.row = 0

/-- A list of spans cut before each span that has a line break. -/
def runs (spans : List Span) : List (List Span) :=
  spans.splitBy fun _ next => next.isFlat

def columns (run : List Span) : Nat := (run.map (·.extent.column.toNat)).sum

theorem columns_cons (a : Span) (run : List Span) :
    columns (a :: run) = a.extent.column.toNat + columns run :=
  List.sum_cons

theorem runs_cons (a : Span) (rest : List Span) :
    runs (a :: rest) = (a :: rest.takeWhile isFlat) :: runs (rest.dropWhile isFlat) := by
  have flat : ∀ next ∈ rest.takeWhile isFlat, next.isFlat = true :=
    fun _ => List.mem_takeWhile_imp
  have chain : (a :: rest.takeWhile isFlat).IsChain fun _ next => next.isFlat = true :=
    (List.pairwise_cons.mpr
      ⟨flat, List.pairwise_of_forall_mem_list fun _ _ next member => flat next member⟩).isChain
  have stops : ∀ next ∈ (rest.dropWhile isFlat).head?, next.isFlat = false := by
    intro next head
    have first := List.head?_dropWhile_not isFlat rest
    rwa [Option.mem_def.mp head] at first
  conv_lhs => rw [← List.takeWhile_append_dropWhile (p := isFlat) (l := rest), ← List.cons_append]
  rw [runs, List.splitBy_append fun _ _ => stops,
    List.splitBy_of_isChain (List.cons_ne_nil a _) chain]
  rfl

/-- A span without a break prolongs the first run. -/
theorem columns_runs_of_flat (sum : a.add? b = some c) (flat : b.extent.row = 0)
    (rest : List Span) :
    (runs (a :: b :: rest)).map columns = (runs (c :: rest)).map columns := by
  have column := (add?_eq_some_iff.mp sum).2
  rw [Extent.add?_eq_some_iff, if_pos flat, Word.add?_eq_some_iff] at column
  have goesOn : b.isFlat = true := decide_eq_true flat
  rw [runs_cons, runs_cons, List.takeWhile_cons_of_pos goesOn, List.dropWhile_cons_of_pos goesOn,
    List.map_cons, List.map_cons, columns_cons, columns_cons, columns_cons, ← Nat.add_assoc,
    column.2]

/-- A span with a break ends the first run, and the sum has forgotten it. -/
theorem columns_runs_of_broken (sum : a.add? b = some c) (broken : b.extent.row ≠ 0)
    (rest : List Span) : (runs (a :: b :: rest)).map columns =
      a.extent.column.toNat :: (runs (c :: rest)).map columns := by
  have column := (add?_eq_some_iff.mp sum).2
  rw [Extent.add?_eq_some_iff, if_neg broken] at column
  have stops : ¬ b.isFlat = true := mt of_decide_eq_true broken
  rw [runs_cons, List.takeWhile_cons_of_neg stops, List.dropWhile_cons_of_neg stops, runs_cons b,
    runs_cons c, List.map_cons, List.map_cons, List.map_cons, columns_cons, columns_cons,
    columns_cons, column.2]
  rfl

/-- What the sum of a list is, where it is there. -/
structure Sums (spans : List Span) (total : Span) : Prop where
  bytes : total.bytes.toNat = (spans.map (·.bytes.toNat)).sum
  row : total.extent.row.toNat = (spans.map (·.extent.row.toNat)).sum
  column : total.extent.column.toNat = columns ((runs spans).getLastD [])
  fits : ∀ run ∈ runs spans, columns run < UInt32.size

theorem columns_getLastD (spans : List Span) :
    columns ((runs spans).getLastD []) = ((runs spans).map columns).getLastD 0 := by
  rw [List.getLastD_eq_getLast?, List.getLastD_eq_getLast?, List.getLast?_map]
  cases (runs spans).getLast? <;> rfl

theorem forall_columns_iff (spans : List Span) : (∀ run ∈ runs spans, columns run < UInt32.size) ↔
    ∀ column ∈ (runs spans).map columns, column < UInt32.size :=
  (List.forall_mem_map (P := (· < UInt32.size))).symm

theorem sums_singleton (a : Span) : Sums [a] a := by
  have run : runs [a] = [[a]] := rfl
  refine ⟨List.sum_singleton.symm, List.sum_singleton.symm, ?_, ?_⟩
  · rw [run]
    exact List.sum_singleton.symm
  · rw [run, List.forall_mem_singleton]
    exact List.sum_singleton.trans_lt a.extent.column.toNat_lt_size

theorem Sums.unique (first : Sums spans a) (second : Sums spans b) : a = b :=
  ext_parts (UInt32.toNat_inj.mp (first.bytes.trans second.bytes.symm))
    (Extent.ext_toNat (first.row.trans second.row.symm) (first.column.trans second.column.symm))

theorem row_add (sum : a.add? b = some c) :
    a.extent.row.toNat + b.extent.row.toNat = c.extent.row.toNat := by
  have extent := (add?_eq_some_iff.mp sum).2
  rw [Extent.add?_eq_some_iff_toNat] at extent
  omega

theorem columns_last_cons_cons (sum : a.add? b = some c) (rest : List Span) :
    columns ((runs (a :: b :: rest)).getLastD []) = columns ((runs (c :: rest)).getLastD []) := by
  rw [columns_getLastD, columns_getLastD]
  by_cases flat : b.extent.row = 0
  · rw [columns_runs_of_flat sum flat]
  · rw [columns_runs_of_broken sum flat, runs_cons c, List.map_cons, List.getLastD_cons,
      List.getLastD_cons, List.getLastD_cons]

theorem columns_fit_cons_cons (sum : a.add? b = some c) (rest : List Span) :
    (∀ run ∈ runs (a :: b :: rest), columns run < UInt32.size) ↔
      ∀ run ∈ runs (c :: rest), columns run < UInt32.size := by
  rw [forall_columns_iff, forall_columns_iff]
  by_cases flat : b.extent.row = 0
  · rw [columns_runs_of_flat sum flat]
  · rw [columns_runs_of_broken sum flat, List.forall_mem_cons,
      and_iff_right a.extent.column.toNat_lt_size]

/-- Adding the first two of a list changes none of the numbers that its sum is made of. -/
theorem sums_cons_cons_iff (sum : a.add? b = some c) :
    Sums (a :: b :: rest) total ↔ Sums (c :: rest) total := by
  have bytes := Word.add?_eq_some_iff.mp (add?_eq_some_iff.mp sum).1
  have row := row_add sum
  have sameBytes : ((a :: b :: rest).map (·.bytes.toNat)).sum =
      ((c :: rest).map (·.bytes.toNat)).sum := by
    simp only [List.map_cons, List.sum_cons]
    omega
  have sameRows : ((a :: b :: rest).map (·.extent.row.toNat)).sum =
      ((c :: rest).map (·.extent.row.toNat)).sum := by
    simp only [List.map_cons, List.sum_cons]
    omega
  have sameLast := columns_last_cons_cons sum rest
  have sameFits := columns_fit_cons_cons sum rest
  exact ⟨fun ⟨bytes, row, column, fits⟩ => ⟨bytes.trans sameBytes, row.trans sameRows,
      column.trans sameLast, sameFits.mp fits⟩,
    fun ⟨bytes, row, column, fits⟩ => ⟨bytes.trans sameBytes.symm, row.trans sameRows.symm,
      column.trans sameLast.symm, sameFits.mpr fits⟩⟩

/-- Nothing that a longer sum needs is missing at its start. -/
theorem Sums.exists_add? (sums : Sums (a :: b :: rest) total) : ∃ c, a.add? b = some c := by
  have bytesBound := total.bytes.toNat_lt_size
  have rowBound := total.extent.row.toNat_lt_size
  have bytes := sums.bytes
  have row := sums.row
  simp only [List.map_cons, List.sum_cons] at bytes row
  obtain ⟨bytesSum, bytesAdd⟩ := Word.exists_add? (a := a.bytes) (b := b.bytes) (by omega)
  obtain ⟨extentSum, extentAdd⟩ := Extent.exists_add?_of_toNat (a := a.extent) (b := b.extent)
    (by omega) (by
      intro flat
      have goesOn : b.isFlat = true := decide_eq_true (UInt32.toNat_inj.mp flat)
      have fits := sums.fits _ (runs_cons a (b :: rest) ▸ List.mem_cons_self)
      rw [List.takeWhile_cons_of_pos goesOn, columns_cons, columns_cons] at fits
      omega)
  exact ⟨⟨bytesSum, extentSum⟩, add?_eq_some_iff.mpr ⟨bytesAdd, extentAdd⟩⟩

/-- A fold from some span is the sum of the list that begins with it. -/
theorem foldlM_add?_eq_some_iff :
    rest.foldlM add? a = some total ↔ Sums (a :: rest) total := by
  -- The start stands for all that has been added up so far, as the first of one list after another.
  induction rest generalizing a with
  | nil =>
    rw [List.foldlM_nil]
    constructor
    · intro same
      obtain rfl := Option.some.inj same
      exact sums_singleton a
    · intro sums
      exact congrArg some ((sums_singleton a).unique sums)
  | cons b rest ih =>
    rw [List.foldlM_cons]
    constructor
    · intro folded
      obtain ⟨c, sum, folded⟩ := Option.bind_eq_some_iff.mp folded
      exact (sums_cons_cons_iff sum).mpr (ih.mp folded)
    · intro sums
      obtain ⟨c, sum⟩ := sums.exists_add?
      rw [sum]
      exact ih.mpr ((sums_cons_cons_iff sum).mp sums)

theorem sum?_eq_some_iff : sum? spans = some total ↔ Sums spans total := by
  cases spans with
  | nil =>
    have empty : Sums [] zero := ⟨rfl, rfl, rfl, fun _ member => nomatch member⟩
    constructor
    · intro same
      obtain rfl := Option.some.inj same
      exact empty
    · intro sums
      exact congrArg some (empty.unique sums)
  | cons a rest =>
    have start : sum? (a :: rest) = rest.foldlM add? a := by
      rw [sum?, List.foldlM_cons, zero_add?]
      rfl
    rw [start, foldlM_add?_eq_some_iff]

theorem exists_sums_iff : (∃ total, Sums spans total) ↔
    (spans.map (·.bytes.toNat)).sum < UInt32.size ∧
      (spans.map (·.extent.row.toNat)).sum < UInt32.size ∧
      ∀ run ∈ runs spans, columns run < UInt32.size := by
  constructor
  · rintro ⟨total, bytes, row, -, fits⟩
    exact ⟨bytes ▸ total.bytes.toNat_lt_size, row ▸ total.extent.row.toNat_lt_size, fits⟩
  · rintro ⟨bytes, row, fits⟩
    have last : columns ((runs spans).getLastD []) < UInt32.size := by
      rw [List.getLastD_eq_getLast?]
      cases ends : (runs spans).getLast? with
      | none => exact UInt32.toNat_lt_size 0
      | some run => exact fits run (List.mem_of_getLast? ends)
    exact ⟨⟨.ofNat _, .ofNat _, .ofNat _⟩, UInt32.toNat_ofNat_of_lt bytes,
      UInt32.toNat_ofNat_of_lt row, UInt32.toNat_ofNat_of_lt last, fits⟩

/-- A sum that starts later is there wherever the longer one is, and is what is left of it. -/
theorem foldlM_add?_of_add? (sum : a.add? b = some c) (folded : rest.foldlM add? c = some total) :
    ∃ last, rest.foldlM add? b = some last ∧ a.add? last = some total := by
  induction rest generalizing b c with
  | nil => exact ⟨b, rfl, sum.trans folded⟩
  | cons x rest ih =>
    rw [List.foldlM_cons] at folded ⊢
    obtain ⟨next, sum', folded⟩ := Option.bind_eq_some_iff.mp folded
    obtain ⟨tail, tailSum, wholeSum⟩ := residuated.assoc sum sum'
    rw [tailSum]
    exact ih wholeSum folded

/-- The sum of a list is missing exactly where the bytes, the rows or the columns of one run are no
word. Otherwise bytes and rows are summed up and the column is that of the last run. A sum can be
taken apart at any place of its list. -/
theorem sum_closed_form (spans : List Span) :
    (sum? spans = none ↔
      UInt32.size ≤ (spans.map (·.bytes.toNat)).sum ∨
      UInt32.size ≤ (spans.map (·.extent.row.toNat)).sum ∨
      ∃ run ∈ runs spans, UInt32.size ≤ columns run) ∧
    (∀ total, sum? spans = some total →
      total.bytes.toNat = (spans.map (·.bytes.toNat)).sum ∧
      total.extent.row.toNat = (spans.map (·.extent.row.toNat)).sum ∧
      total.extent.column.toNat = columns ((runs spans).getLastD [])) ∧
    ∀ first last total, spans = first ++ last → sum? spans = some total →
      ∃ a b, sum? first = some a ∧ sum? last = some b ∧ a.add? b = some total := by
  refine ⟨?missing, ?values, ?parts⟩
  case missing =>
    rw [Option.eq_none_iff_forall_ne_some]
    simp only [ne_eq, sum?_eq_some_iff]
    rw [← not_exists, exists_sums_iff]
    simp only [not_and_or, not_forall, not_lt, exists_prop]
  case values =>
    intro total sum
    have sums := sum?_eq_some_iff.mp sum
    exact ⟨sums.bytes, sums.row, sums.column⟩
  case parts =>
    rintro first last total rfl sum
    rw [sum?, List.foldlM_append] at sum
    obtain ⟨a, sumFirst, folded⟩ := Option.bind_eq_some_iff.mp sum
    obtain ⟨b, sumLast, whole⟩ := foldlM_add?_of_add? (add?_zero a) folded
    exact ⟨a, b, sumFirst, sumLast, whole⟩

example : sum? [⟨2, ⟨0, 2⟩⟩, ⟨3, ⟨1, 1⟩⟩, ⟨4, ⟨0, 4⟩⟩] = some ⟨9, ⟨1, 5⟩⟩ := by decide

end SyntaxForest.Span
