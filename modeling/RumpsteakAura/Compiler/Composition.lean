import RumpsteakAura.Compiler.Grammar

/-!
# What a successful composition contains

When the registry holds any extension rules, a successful `compose` returns
the base grammar, changed only by the alternatives spliced in before the
first `)` after the first occurrence of `annotation* ~ (send_stmt |
broadcast_stmt`, followed by a comment line and the registry's
`compose_grammar("")` text: every registered extension's rules once, in
non-increasing priority.

The spliced alternatives are found by scanning that text for lines ending in
`_stmt = {`; `statement_rules()` is never read.  So the repository's own test
extension, which declares `timeout_stmt` and defines it on one line, reaches
the composed grammar only after the comment line, never the statement
alternatives, although `has_extension_rule("timeout_stmt")` holds.
-/

namespace RumpsteakAura

open Str

namespace GrammarComposer

variable {P : Type}

/-! ## The registry's rule text -/

/-- A blank-insensitive scan of the composed extension rules is the scan of
each extension's rules in priority order. -/
theorem scanLines_composeGrammar {β : Type} {f : List Char → Option β} (blank : f [] = none)
    (reg : ExtensionRegistry P) :
    scanLines f (reg.composeGrammar []) =
      (sortByPriority reg.grammarExtensions.values).flatMap
        fun extension => scanLines f extension.grammarRules := by
  rw [ExtensionRegistry.composeGrammar_eq, scanLines_flatMap_newline blank, scanLines_nil,
    List.nil_append]

/-- The composed extension rules are blank exactly when every registered
extension's rules are. -/
theorem trim_composeGrammar_eq_nil_iff (reg : ExtensionRegistry P) :
    trim (reg.composeGrammar []) = [] ↔
      ∀ extension ∈ reg.grammarExtensions.values, trim extension.grammarRules = [] := by
  have newline : isWhitespace '\n' = true := by decide
  simp only [ExtensionRegistry.composeGrammar_eq, List.nil_append, trim_eq_nil_iff,
    List.mem_flatMap, List.mem_cons, (sortByPriority_perm _).mem_iff]
  constructor
  · intro blank extension registered c mem
    exact blank c ⟨extension, registered, .inr mem⟩
  · rintro blank c ⟨extension, registered, rfl | mem⟩
    · exact newline
    · exact blank extension registered c mem

theorem insertAlternatives_eq (baseGrammar : List Char) (alternativesEnd : Nat)
    (statements : List (List Char)) :
    insertAlternatives baseGrammar alternativesEnd statements =
      baseGrammar.take alternativesEnd ++
        (if statements.isEmpty then []
          else " | ".toList ++ " | ".toList.intercalate statements) ++
        baseGrammar.drop alternativesEnd := by
  unfold insertAlternatives
  split <;> simp

/-- With extension rules present, a successful composition is the base grammar
spliced at the end of its statement alternatives, then the extension rules. -/
theorem compose_eq_ok_of_nonblank {c : GrammarComposer P} {composed : List Char}
    (composeOk : c.compose = .ok composed)
    (nonBlank : trim (c.extensionRegistry.composeGrammar []) ≠ []) :
    ∃ alternativesEnd, findAlternativesEnd c.baseGrammar = .ok alternativesEnd ∧
      composed = insertAlternatives c.baseGrammar alternativesEnd
          (scanLines statementRuleName (c.extensionRegistry.composeGrammar [])) ++
        "\n// Extension Rules\n".toList ++ c.extensionRegistry.composeGrammar [] := by
  obtain ⟨extended, -⟩ := (compose_eq_ok_iff c composed).mp composeOk
  rw [extendedGrammar_of_nonblank c nonBlank, bind_eq_ok] at extended
  obtain ⟨_, -, injected⟩ := extended
  exact (injectExtensionRules_eq_ok_iff _ _ _).mp injected

/-! ## The splice point -/

theorem singleton_prefix_drop_iff (s : List Char) (c : Char) (i : Nat) :
    List.IsPrefix [c] (s.drop i) ↔ s[i]? = some c := by
  rw [← List.head?_drop]
  cases s.drop i with
  | nil => simp
  | cons first rest => simp [eq_comm]

/-- The `)` search of `inject_extension_rules` finds the first `)` at or
after `start`. -/
theorem find_close_drop_eq_some_iff (s : List Char) (start offset : Nat) :
    find ")".toList (s.drop start) = some offset ↔
      s[start + offset]? = some ')' ∧
        ∀ j, start ≤ j → j < start + offset → s[j]? ≠ some ')' := by
  have close : ")".toList = [')'] := rfl
  simp only [close, find_eq_some_iff, List.drop_drop, singleton_prefix_drop_iff]
  refine and_congr Iff.rfl ⟨fun before j lo hi => ?_, fun before j short => ?_⟩
  · simpa [Nat.add_sub_cancel' lo] using before (j - start) (by omega)
  · exact before (start + j) (by omega) (by omega)

theorem okOr_eq_ok_iff {ε α : Type} {value : Option α} {fallback : ε} {a : α} :
    okOr value fallback = .ok a ↔ value = some a := by
  cases value <;> simp [okOr]

/-- The searches of `inject_extension_rules` succeed exactly when the base
grammar holds `annotated_stmt = {` and the alternatives text with a `)` after
it, and they end at the first `)` at or after the alternatives text's first
occurrence. -/
theorem findAlternativesEnd_eq_ok_iff (baseGrammar : List Char) (alternativesEnd : Nat) :
    findAlternativesEnd baseGrammar = .ok alternativesEnd ↔
      List.IsInfix "annotated_stmt = \x7b".toList baseGrammar ∧
      ∃ alternativesStart,
        find "annotation* ~ (send_stmt | broadcast_stmt".toList baseGrammar =
          some alternativesStart ∧
        alternativesStart ≤ alternativesEnd ∧ baseGrammar[alternativesEnd]? = some ')' ∧
        ∀ j, alternativesStart ≤ j → j < alternativesEnd →
          baseGrammar[j]? ≠ some ')' := by
  simp only [findAlternativesEnd, bind_eq_ok, okOr_eq_ok_iff, pure_eq_ok, ← find_isSome_iff,
    Option.isSome_iff_exists, exists_and_right]
  refine and_congr Iff.rfl (exists_congr fun start => and_congr Iff.rfl ⟨?_, ?_⟩)
  · rintro ⟨offset, found, rfl⟩
    rw [find_close_drop_eq_some_iff] at found
    rw [Nat.add_comm]
    exact ⟨Nat.le_add_right _ _, found⟩
  · rintro ⟨lo, closing, before⟩
    refine ⟨alternativesEnd - start, (find_close_drop_eq_some_iff _ _ _).mpr ?_, by omega⟩
    rw [Nat.add_sub_cancel' lo]
    exact ⟨closing, before⟩

/-- When `compose` injects, the statement names go in right before the first
`)` at or after the first occurrence of `annotation* ~ (send_stmt |
broadcast_stmt` in the base grammar, which need not be the `)` that closes
that group; the base grammar on either side of that point is kept. -/
theorem compose_splice_point (c : GrammarComposer P) (composed : List Char)
    (composeOk : c.compose = .ok composed)
    (nonBlank : trim (c.extensionRegistry.composeGrammar []) ≠ []) :
    let alternatives := "annotation* ~ (send_stmt | broadcast_stmt".toList
    ∃ alternativesStart alternativesEnd,
      findAlternativesEnd c.baseGrammar = .ok alternativesEnd ∧
      List.IsPrefix alternatives (c.baseGrammar.drop alternativesStart) ∧
      (∀ j < alternativesStart, ¬ List.IsPrefix alternatives (c.baseGrammar.drop j)) ∧
      alternativesStart ≤ alternativesEnd ∧ c.baseGrammar[alternativesEnd]? = some ')' ∧
      (∀ j, alternativesStart ≤ j → j < alternativesEnd →
        c.baseGrammar[j]? ≠ some ')') ∧
      composed = insertAlternatives c.baseGrammar alternativesEnd
          (scanLines statementRuleName (c.extensionRegistry.composeGrammar [])) ++
        "\n// Extension Rules\n".toList ++ c.extensionRegistry.composeGrammar [] := by
  obtain ⟨alternativesEnd, found, shape⟩ := compose_eq_ok_of_nonblank composeOk nonBlank
  obtain ⟨-, start, first, lo, closing, before⟩ := (findAlternativesEnd_eq_ok_iff _ _).mp found
  obtain ⟨atStart, notBefore⟩ := find_eq_some_iff.mp first
  exact ⟨start, alternativesEnd, found, atStart, notBefore, lo, closing, before, shape⟩

/-! ## Composition after a run of registrations -/

section Fresh

variable (grammarSeed : RandomState (List Char) GrammarExtension)
  (parserSeed : RandomState (List Char) P) (ruleSeed : RandomState (List Char) (List Char))

/-- `compose_grammar` emits each extension registered last under its id once,
by non-increasing priority; a successful `compose` with any non-blank
extension rules is the base grammar with text inserted right before the first
`)` at or after the first occurrence of the statement alternatives, then the
comment line and exactly those rules. -/
theorem composeGrammar_run (base grammarBase : List Char) (calls : List (Registration P)) :
    let reg := (ExtensionRegistry.new grammarSeed parserSeed ruleSeed).run calls
    let alternatives := "annotation* ~ (send_stmt | broadcast_stmt".toList
    ∃ order : List GrammarExtension,
      order.Perm (ExtensionRegistry.latestById (Registration.grammars calls)) ∧
      order.Sorted GrammarExtension.ByPriority ∧
      reg.composeGrammar base = base ++ order.flatMap (fun e => '\n' :: e.grammarRules) ∧
      ∀ composed, (GrammarComposer.mk grammarBase reg).compose = .ok composed →
        (∃ extension ∈ reg.grammarExtensions.values, trim extension.grammarRules ≠ []) →
        ∃ alternativesStart alternativesEnd inserted,
          findAlternativesEnd grammarBase = .ok alternativesEnd ∧
          List.IsPrefix alternatives (grammarBase.drop alternativesStart) ∧
          (∀ j < alternativesStart, ¬ List.IsPrefix alternatives (grammarBase.drop j)) ∧
          alternativesStart ≤ alternativesEnd ∧ grammarBase[alternativesEnd]? = some ')' ∧
          (∀ j, alternativesStart ≤ j → j < alternativesEnd →
            grammarBase[j]? ≠ some ')') ∧
          composed = grammarBase.take alternativesEnd ++ inserted ++
            grammarBase.drop alternativesEnd ++ "\n// Extension Rules\n".toList ++
            order.flatMap (fun e => '\n' :: e.grammarRules) := by
  intro reg alternatives
  refine ⟨sortByPriority reg.grammarExtensions.values,
    (sortByPriority_perm _).trans (ExtensionRegistry.values_run_perm _ _ _ calls),
    sorted_sortByPriority _, ExtensionRegistry.composeGrammar_eq _ _,
    fun composed composeOk nonBlank => ?_⟩
  have rulesPresent : trim (reg.composeGrammar []) ≠ [] := by
    rw [Ne, trim_composeGrammar_eq_nil_iff]
    obtain ⟨extension, registered, visible⟩ := nonBlank
    exact fun blank => visible (blank extension registered)
  obtain ⟨start, alternativesEnd, found, atStart, notBefore, lo, closing, before, shape⟩ :=
    compose_splice_point ⟨grammarBase, reg⟩ composed composeOk rulesPresent
  rw [shape, insertAlternatives_eq, ExtensionRegistry.composeGrammar_eq reg [], List.nil_append]
  exact ⟨start, alternativesEnd, _, found, atStart, notBefore, lo, closing, before, rfl⟩

/-- `extension_count` after any run counts the distinct extension ids
registered: registering under an id again does not add to it. -/
theorem extensionCount_run (baseGrammar : List Char) (calls : List (Registration P)) :
    (GrammarComposer.mk baseGrammar
        ((ExtensionRegistry.new grammarSeed parserSeed ruleSeed).run calls)).extensionCount =
      ((Registration.grammars calls).map GrammarExtension.extensionId).dedup.length := by
  rw [extensionCount, (ExtensionRegistry.values_run_perm _ _ _ calls).length_eq,
    ExtensionRegistry.length_latestById]

end Fresh

/-! ## The repository's test extension -/

/-- A base grammar holding only the statement rule, laid out as `compose`
expects it. -/
def statementGrammar : List Char :=
  "annotated_stmt = \x7b\n    annotation* ~ (send_stmt | broadcast_stmt)\n\x7d".toList

/-- An extension declaring `choice_stmt`, whose definition uses a helper rule
`branch_stmt` that it does not declare; both are written over several lines. -/
def choiceExtension : GrammarExtension where
  grammarRules :=
    "choice_stmt = \x7b\n    \"choose\" ~ branch_stmt\n\x7d\nbranch_stmt = \x7b\n    \"branch\"\n\x7d".toList
  statementRules := ["choice_stmt".toList]
  extensionId := "choice".toList

/-- The repository's test extension: `timeout_stmt` on a single line. -/
def timeoutExtension : GrammarExtension where
  grammarRules :=
    "timeout_stmt = \x7b \"timeout\" ~ integer ~ \"\x7b\" ~ protocol_body ~ \"\x7d\" \x7d".toList
  statementRules := ["timeout_stmt".toList]
  extensionId := "test_timeout".toList

/-- The composer with `choiceExtension` registered over `statementGrammar`. -/
def choiceComposer : GrammarComposer Unit :=
  (new statementGrammar .insertionOrder .insertionOrder .insertionOrder).registerExtension
    choiceExtension

/-- What `compose` returns for `choiceComposer`: both rules are spliced. -/
def choiceGrammar : List Char :=
  ("annotated_stmt = \x7b\n    annotation* ~ (send_stmt | broadcast_stmt | choice_stmt | " ++
    "branch_stmt)\n\x7d\n// Extension Rules\n\nchoice_stmt = \x7b\n    \"choose\" ~ " ++
    "branch_stmt\n\x7d\nbranch_stmt = \x7b\n    \"branch\"\n\x7d").toList

/-- `test_grammar_composition`'s composer: `TestExtension` registered over
the base grammar. -/
def timeoutComposer (baseGrammar : List Char)
    (grammarSeed : RandomState (List Char) GrammarExtension)
    (parserSeed : RandomState (List Char) P)
    (ruleSeed : RandomState (List Char) (List Char)) : GrammarComposer P :=
  (new baseGrammar grammarSeed parserSeed ruleSeed).registerExtension timeoutExtension

/-- Whatever the base grammar and the seeds, once `TestExtension` is
registered `has_extension_rule("timeout_stmt")` holds, yet no line of its
rule text ends in `_stmt = {`: a successful `compose` splices nothing into
the statement alternatives and only appends the rule after the comment
line. -/
theorem compose_leaves_timeout_stmt_unspliced (baseGrammar composed : List Char)
    (grammarSeed : RandomState (List Char) GrammarExtension)
    (parserSeed : RandomState (List Char) P)
    (ruleSeed : RandomState (List Char) (List Char))
    (composeOk : (timeoutComposer baseGrammar grammarSeed parserSeed ruleSeed).compose =
      .ok composed) :
    let c := timeoutComposer baseGrammar grammarSeed parserSeed ruleSeed
    c.hasExtensionRule "timeout_stmt".toList = true ∧
      scanLines statementRuleName (c.extensionRegistry.composeGrammar []) = [] ∧
      composed = baseGrammar ++ "\n// Extension Rules\n".toList ++
        '\n' :: timeoutExtension.grammarRules := by
  intro c
  have stored : c.extensionRegistry.grammarExtensions.values = [timeoutExtension] := by
    simp [c, timeoutComposer, registerExtension, ExtensionRegistry.registerGrammar, new,
      ExtensionRegistry.new, HashMap.values, HashMap.insert, HashMap.new, insertEntries,
      List.perm_singleton.mp (grammarSeed.order_perm _)]
  have rules : c.extensionRegistry.composeGrammar [] = '\n' :: timeoutExtension.grammarRules := by
    rw [ExtensionRegistry.composeGrammar_eq, stored]
    rfl
  have unspliced : scanLines statementRuleName (c.extensionRegistry.composeGrammar []) = [] := by
    rw [rules]
    decide
  have declared : c.hasExtensionRule "timeout_stmt".toList = true := by
    simp [c, timeoutComposer, hasExtensionRule, registerExtension, ExtensionRegistry.canHandle,
      HashMap.containsKey, ExtensionRegistry.get_claimRules, timeoutExtension]
  have nonBlank : trim (c.extensionRegistry.composeGrammar []) ≠ [] := by
    rw [rules]
    decide
  obtain ⟨alternativesEnd, -, shape⟩ := compose_eq_ok_of_nonblank composeOk nonBlank
  refine ⟨declared, unspliced, ?_⟩
  rw [shape, unspliced, insertAlternatives, if_pos List.isEmpty_nil, rules]
  rfl

theorem statementGrammar_leaves_timeout_stmt_unspliced :
    let c : GrammarComposer Unit :=
      timeoutComposer statementGrammar .insertionOrder .insertionOrder .insertionOrder
    let composed := statementGrammar ++ "\n// Extension Rules\n".toList ++
      '\n' :: timeoutExtension.grammarRules
    c.compose = .ok composed ∧
      c.hasExtensionRule "timeout_stmt".toList = true ∧
      scanLines statementRuleName (c.extensionRegistry.composeGrammar []) = [] ∧
      composed = statementGrammar ++ "\n// Extension Rules\n".toList ++
        '\n' :: timeoutExtension.grammarRules :=
  ⟨rfl, compose_leaves_timeout_stmt_unspliced statementGrammar _ .insertionOrder .insertionOrder
    .insertionOrder rfl⟩

end GrammarComposer

end RumpsteakAura
