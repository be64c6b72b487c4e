import Mathlib.Data.List.DropRight
import Mathlib.Data.List.Basic

/-!
# Rust string slices as character lists

The grammar composer works on Pest grammar text with a handful of `str`
methods: `trim`, `lines`, `find`, `contains`, `ends_with`, `starts_with` and
the first piece of a `split`.  Text is a `List Char` here, and every position
is a character index; the source only slices at positions `find` returned, so
byte and character indices select the same pieces.

The one law the composer's line scans need is that a scan which ignores blank
lines sees the same lines in `a ++ '\n' :: b` as in `a` followed by `b`.
-/

namespace RumpsteakAura.Str

/-- `char::is_whitespace`: the Unicode `White_Space` property. -/
def isWhitespace (c : Char) : Bool :=
  let n := c.toNat
  (9 ≤ n && n ≤ 13) || n == 0x20 || n == 0x85 || n == 0xA0 || n == 0x1680 ||
    (0x2000 ≤ n && n ≤ 0x200A) || n == 0x2028 || n == 0x2029 || n == 0x202F ||
    n == 0x205F || n == 0x3000

/-- `str::trim`: drop whitespace at both ends. -/
def trim (s : List Char) : List Char :=
  (s.rdropWhile isWhitespace).dropWhile isWhitespace

/-- A text trims to nothing exactly when it is all whitespace. -/
theorem trim_eq_nil_iff {s : List Char} : trim s = [] ↔ ∀ c ∈ s, isWhitespace c := by
  rw [trim, List.dropWhile_eq_nil_iff, ← List.rdropWhile_eq_nil_iff (l := s)]
  constructor
  · intro allBlank
    by_contra nonEmpty
    exact List.rdropWhile_last_not _ _ nonEmpty (allBlank _ (List.getLast_mem nonEmpty))
  · intro empty
    simp [empty]

theorem trim_append_whitespace {s : List Char} {c : Char} (blank : isWhitespace c) :
    trim (s ++ [c]) = trim s := by
  rw [trim, List.rdropWhile_concat_pos _ _ _ blank, trim]

theorem trim_subset (s : List Char) : trim s ⊆ s :=
  ((List.dropWhile_suffix _).sublist.trans (List.rdropWhile_prefix _ _).sublist).subset

/-! ## Lines -/

/-- `str::strip_suffix('\r')`, keeping the line when it has no such suffix. -/
def stripCarriageReturn (line : List Char) : List Char :=
  if line.getLast? = some '\r' then line.dropLast else line

@[simp]
theorem trim_stripCarriageReturn (line : List Char) :
    trim (stripCarriageReturn line) = trim line := by
  unfold stripCarriageReturn
  split
  · next endsCr =>
      obtain ⟨front, rfl⟩ := List.getLast?_eq_some_iff.mp endsCr
      rw [List.dropLast_concat, trim_append_whitespace (by decide)]
  · rfl

/-- `str::lines`: the pieces between newlines, where a piece that a newline
ends loses one `\r` before it, and the empty piece after a final newline (the
only piece of an empty text) is not a line. -/
def lines (s : List Char) : List (List Char) :=
  let pieces := s.splitOn '\n'
  pieces.dropLast.map stripCarriageReturn ++
    match pieces.getLast? with
    | none | some [] => []
    | some last => [last]

/-- Splitting at a separator distributes over a text joined by that
separator. -/
theorem splitOn_append_cons {α : Type} [DecidableEq α] (sep : α) (a b : List α) :
    (a ++ sep :: b).splitOn sep = a.splitOn sep ++ b.splitOn sep := by
  induction a with
  | nil => simp [List.splitOn, List.splitOnP_cons]
  | cons x a ih =>
      simp only [List.splitOn] at ih ⊢
      rw [List.cons_append, List.splitOnP_cons, List.splitOnP_cons, ih]
      split
      · rfl
      · cases nonEmpty : a.splitOnP (· == sep) with
        | nil => exact absurd nonEmpty (List.splitOnP_ne_nil _ _)
        | cons piece pieces => rfl

/-- A piece of a split text is made of the text's characters. -/
theorem subset_of_mem_splitOn {α : Type} [DecidableEq α] {sep : α} {s piece : List α}
    (mem : piece ∈ s.splitOn sep) : piece ⊆ s := by
  induction s generalizing piece with
  | nil => simp_all [List.splitOn]
  | cons x rest ih =>
      simp only [List.splitOn] at ih mem
      rw [List.splitOnP_cons] at mem
      split at mem
      · rcases List.mem_cons.mp mem with rfl | later
        · exact List.nil_subset _
        · exact fun c inPiece => List.mem_cons_of_mem _ (ih later inPiece)
      · cases pieces : rest.splitOnP (· == sep) with
        | nil => exact absurd pieces (List.splitOnP_ne_nil _ _)
        | cons first others =>
            rw [pieces] at ih mem
            rcases List.mem_cons.mp mem with rfl | later
            · exact List.cons_subset_cons _ (ih (List.mem_cons_self _ _))
            · exact fun c inPiece =>
                List.mem_cons_of_mem _ (ih (List.mem_cons_of_mem _ later) inPiece)

/-- A piece of a text split at `sep` holds no `sep`. -/
theorem not_mem_of_mem_splitOn {α : Type} [DecidableEq α] {sep : α} {s piece : List α}
    (mem : piece ∈ s.splitOn sep) : sep ∉ piece := by
  induction s generalizing piece with
  | nil => simp_all [List.splitOn]
  | cons x rest ih =>
      simp only [List.splitOn] at ih mem
      rw [List.splitOnP_cons] at mem
      split at mem
      · rcases List.mem_cons.mp mem with rfl | later
        · exact List.not_mem_nil _
        · exact ih later
      · next kept =>
        cases pieces : rest.splitOnP (· == sep) with
        | nil => exact absurd pieces (List.splitOnP_ne_nil _ _)
        | cons first others =>
            rw [pieces] at ih mem
            rcases List.mem_cons.mp mem with rfl | later
            · exact List.not_mem_cons_of_ne_of_not_mem (fun same => kept (by simp [same]))
                (ih (List.mem_cons_self _ _))
            · exact ih (List.mem_cons_of_mem _ later)

theorem stripCarriageReturn_subset (line : List Char) : stripCarriageReturn line ⊆ line := by
  unfold stripCarriageReturn
  split
  · exact List.dropLast_subset _
  · exact List.Subset.refl _

/-- A line holds no newline. -/
theorem newline_not_mem_of_mem_lines {s line : List Char} (mem : line ∈ lines s) :
    '\n' ∉ line := by
  rw [lines] at mem
  rcases List.mem_append.mp mem with stripped | last
  · obtain ⟨piece, inFront, rfl⟩ := List.mem_map.mp stripped
    exact fun newline => not_mem_of_mem_splitOn (List.dropLast_subset _ inFront)
      (stripCarriageReturn_subset _ newline)
  · split at last
    · simp at last
    · simp at last
    · next _ piece _ isLast =>
        rw [List.mem_singleton.mp last]
        exact not_mem_of_mem_splitOn (List.mem_of_getLast?_eq_some isLast)

/-! ## The line around a position -/

/-- The characters after the last newline of `s`. -/
def lineEnd (s : List Char) : List Char :=
  (s.reverse.takeWhile (· ≠ '\n')).reverse

/-- The characters before the first newline of `s`. -/
def lineStart (s : List Char) : List Char :=
  s.takeWhile (· ≠ '\n')

/-- The line of `s` that holds position `position`. -/
def lineAround (s : List Char) (position : Nat) : List Char :=
  lineEnd (s.take position) ++ lineStart (s.drop position)

theorem newline_not_mem_lineStart (s : List Char) : '\n' ∉ lineStart s := fun mem => by
  simpa using List.mem_takeWhile_imp mem

theorem newline_not_mem_lineEnd (s : List Char) : '\n' ∉ lineEnd s := by
  rw [lineEnd, List.mem_reverse]
  exact newline_not_mem_lineStart _

theorem append_newline_eq_lineStart (s : List Char) :
    ∃ back, s ++ ['\n'] = lineStart s ++ '\n' :: back := by
  induction s with
  | nil => exact ⟨[], rfl⟩
  | cons c rest ih =>
      by_cases newline : c = '\n'
      · exact ⟨rest ++ ['\n'], by simp [lineStart, newline]⟩
      · obtain ⟨back, split⟩ := ih
        exact ⟨back, by simpa [lineStart, newline] using split⟩

theorem newline_cons_eq_lineEnd (s : List Char) :
    ∃ front, '\n' :: s = front ++ '\n' :: lineEnd s := by
  obtain ⟨back, split⟩ := append_newline_eq_lineStart s.reverse
  exact ⟨back.reverse, by simpa [lineEnd, lineStart] using congrArg List.reverse split⟩

section Scan

variable {β : Type} (f : List Char → Option β)

/-- A line scan that trims each line first: what the composer's loops over
`lines()` compute. -/
def scanLines (s : List Char) : List β :=
  (lines s).filterMap fun line => f (trim line)

variable {f}

/-- A scan that ignores blank lines sees the raw newline-separated pieces:
`lines` only drops an empty piece and `\r` characters, which trimming drops
anyway. -/
theorem scanLines_eq_splitOn (blank : f [] = none) (s : List Char) :
    scanLines f s = (s.splitOn '\n').filterMap fun line => f (trim line) := by
  have nonEmpty : s.splitOn '\n' ≠ [] := List.splitOnP_ne_nil _ _
  have whole := List.dropLast_append_getLast nonEmpty
  rw [scanLines, lines]
  simp only [List.filterMap_append, List.filterMap_map, Function.comp_def,
    trim_stripCarriageReturn]
  conv_rhs => rw [← whole]
  rw [List.filterMap_append, List.getLast?_eq_getLast _ nonEmpty]
  congr 1
  cases (s.splitOn '\n').getLast nonEmpty with
  | nil => simp [trim, blank]
  | cons c rest => rfl

/-- A blank text has no lines a blank-insensitive scan sees. -/
theorem scanLines_eq_nil_of_blank (blank : f [] = none) {s : List Char}
    (allBlank : ∀ c ∈ s, isWhitespace c) : scanLines f s = [] := by
  rw [scanLines_eq_splitOn blank, List.filterMap_eq_nil_iff]
  intro piece mem
  rw [trim_eq_nil_iff.mpr fun c inPiece => allBlank c (subset_of_mem_splitOn mem inPiece), blank]

theorem scanLines_append_newline (blank : f [] = none) (a b : List Char) :
    scanLines f (a ++ '\n' :: b) = scanLines f a ++ scanLines f b := by
  simp only [scanLines_eq_splitOn blank, splitOn_append_cons, List.filterMap_append]

@[simp]
theorem scanLines_nil : scanLines f [] = [] := rfl

/-- Each fragment of a newline-prefixed concatenation is scanned on its own. -/
theorem scanLines_flatMap_newline {α : Type} (blank : f [] = none) (a : List Char)
    (items : List α) (text : α → List Char) :
    scanLines f (a ++ items.flatMap fun item => '\n' :: text item) =
      scanLines f a ++ items.flatMap fun item => scanLines f (text item) := by
  induction items generalizing a with
  | nil => simp
  | cons item items ih =>
      rw [List.flatMap_cons, List.cons_append, scanLines_append_newline blank, ih,
        List.flatMap_cons]

/-- A text without newlines is one line, or none when it is empty. -/
theorem scanLines_of_newline_not_mem (blank : f [] = none) {line : List Char}
    (oneLine : '\n' ∉ line) : scanLines f line = (f (trim line)).toList := by
  have single : line.splitOnP (· == '\n') = [line] :=
    List.splitOnP_eq_single _ _ fun c mem newline => oneLine (beq_iff_eq.mp newline ▸ mem)
  rw [scanLines_eq_splitOn blank, List.splitOn, single]
  cases named : f (trim line) <;> simp [named]

theorem scanLines_pad (blank : f [] = none) (s : List Char) :
    scanLines f ('\n' :: (s ++ ['\n'])) = scanLines f s := by
  rw [← List.nil_append ('\n' :: _), scanLines_append_newline blank,
    scanLines_append_newline blank]
  simp

/-- Text without newlines spliced in at `position` joins the line around the
position; the scan sees the lines before and after that line as it did. -/
theorem scanLines_splice (blank : f [] = none) (s : List Char) (position : Nat) :
    ∃ front back, ∀ inserted, '\n' ∉ inserted →
      scanLines f (s.take position ++ inserted ++ s.drop position) =
        scanLines f front ++ (f (trim (lineEnd (s.take position) ++ inserted ++
          lineStart (s.drop position)))).toList ++ scanLines f back := by
  obtain ⟨front, before⟩ := newline_cons_eq_lineEnd (s.take position)
  obtain ⟨back, after⟩ := append_newline_eq_lineStart (s.drop position)
  refine ⟨front, back, fun inserted oneLine => ?_⟩
  have line : '\n' ∉ lineEnd (s.take position) ++ inserted ++ lineStart (s.drop position) := by
    simp [newline_not_mem_lineEnd, newline_not_mem_lineStart, oneLine]
  have padded : '\n' :: (s.take position ++ inserted ++ s.drop position ++ ['\n']) =
      front ++ '\n' :: ((lineEnd (s.take position) ++ inserted ++
        lineStart (s.drop position)) ++ '\n' :: back) := by
    rw [List.append_assoc _ (s.drop position), after, ← List.cons_append, ← List.cons_append,
      before]
    simp
  rw [← scanLines_pad blank, padded, scanLines_append_newline blank,
    scanLines_append_newline blank, scanLines_of_newline_not_mem blank line]
  simp only [List.append_assoc]

/-- Splicing text without newlines into a line the scan ignores, so that the
line stays ignored, changes nothing the scan sees. -/
theorem scanLines_insert (blank : f [] = none) {s inserted : List Char} {position : Nat}
    (oneLine : '\n' ∉ inserted)
    (ignored : f (trim (lineAround s position)) = none)
    (stillIgnored :
      f (trim (lineEnd (s.take position) ++ inserted ++ lineStart (s.drop position))) = none) :
    scanLines f (s.take position ++ inserted ++ s.drop position) = scanLines f s := by
  obtain ⟨front, back, spliced⟩ := scanLines_splice blank s position
  have unchanged := spliced [] (List.not_mem_nil _)
  rw [List.append_nil, List.take_append_drop, List.append_nil] at unchanged
  rw [spliced inserted oneLine, unchanged, stillIgnored, ← lineAround, ignored]

end Scan

/-! ## Searching -/

/-- `str::find`: the index of the first occurrence of `pat`. -/
def find (pat : List Char) : List Char → Option Nat
  | [] => if pat.isPrefixOf [] then some 0 else none
  | s@(_ :: rest) => if pat.isPrefixOf s then some 0 else (find pat rest).map (· + 1)

/-- `str::contains`. -/
def contains (s pat : List Char) : Bool :=
  (find pat s).isSome

theorem find_isSome_iff (pat s : List Char) : (find pat s).isSome ↔ List.IsInfix pat s := by
  induction s with
  | nil => simp [find, List.isPrefixOf_iff_prefix]
  | cons c rest ih =>
      rw [List.infix_cons_iff, ← ih, ← List.isPrefixOf_iff_prefix, find]
      split <;> simp [*]

/-- `find` returns the first position at which `pat` starts. -/
theorem find_eq_some_iff {pat s : List Char} {i : Nat} :
    find pat s = some i ↔
      List.IsPrefix pat (s.drop i) ∧ ∀ j < i, ¬ List.IsPrefix pat (s.drop j) := by
  induction s generalizing i with
  | nil =>
      cases i with
      | zero => simp [find, List.isPrefixOf_iff_prefix]
      | succ i =>
          refine iff_of_false (by unfold find; split <;> simp) fun ⟨atI, notBefore⟩ => ?_
          exact notBefore 0 (Nat.zero_lt_succ i) (by simpa using atI)
  | cons c rest ih =>
      by_cases here : List.IsPrefix pat (c :: rest)
      · rw [find, if_pos (List.isPrefixOf_iff_prefix.mpr here)]
        cases i with
        | zero => simpa using here
        | succ i =>
            exact iff_of_false (by simp) fun ⟨_, notBefore⟩ =>
              notBefore 0 (Nat.zero_lt_succ i) here
      · rw [find, if_neg (mt List.isPrefixOf_iff_prefix.mp here)]
        cases i with
        | zero => simp [here]
        | succ i => simp [ih, Nat.forall_lt_succ_left', here]

theorem contains_eq_true_iff (s pat : List Char) : contains s pat = true ↔ List.IsInfix pat s :=
  find_isSome_iff pat s

/-- The first piece of `str::split(pat)`: the text before the first
occurrence of `pat`, or all of it. -/
def splitFirst (s pat : List Char) : List Char :=
  match find pat s with
  | some i => s.take i
  | none => s

theorem splitFirst_subset (s pat : List Char) : splitFirst s pat ⊆ s := by
  unfold splitFirst
  split
  · exact List.take_subset _ _
  · exact List.Subset.refl _

/-- The first piece of a split at a character holds no such character. -/
theorem not_mem_splitFirst (c : Char) (s : List Char) : c ∉ splitFirst s [c] := by
  induction s with
  | nil => simp [splitFirst, find]
  | cons x rest ih =>
      by_cases here : x = c
      · simp [splitFirst, find, here]
      · have step : splitFirst (x :: rest) [c] = x :: splitFirst rest [c] := by
          unfold splitFirst
          rw [find, if_neg (by simpa [List.isPrefixOf] using Ne.symm here)]
          cases find [c] rest <;> rfl
        rw [step]
        exact List.not_mem_cons_of_ne_of_not_mem (Ne.symm here) ih

/-- Every element of an intercalation comes from the separator or an item. -/
theorem forall_mem_intercalate {α : Type} {p : α → Prop} {sep : List α}
    {items : List (List α)} (sepOk : ∀ c ∈ sep, p c)
    (itemsOk : ∀ item ∈ items, ∀ c ∈ item, p c) :
    ∀ c ∈ sep.intercalate items, p c := by
  induction items with
  | nil => simp [List.intercalate]
  | cons item items ih =>
      cases items with
      | nil => simpa [List.intercalate] using itemsOk item
      | cons next items =>
          have split : sep.intercalate (item :: next :: items) =
              item ++ sep ++ sep.intercalate (next :: items) := by
            simp [List.intercalate, List.intersperse_cons₂]
          intro c mem
          simp only [split, List.mem_append] at mem
          rcases mem with (inItem | inSep) | inRest
          · exact itemsOk item (List.mem_cons_self _ _) c inItem
          · exact sepOk c inSep
          · exact ih (fun other inOthers => itemsOk other (List.mem_cons_of_mem _ inOthers))
              c inRest

end RumpsteakAura.Str
