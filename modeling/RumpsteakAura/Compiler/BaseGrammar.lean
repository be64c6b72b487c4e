import RumpsteakAura.Compiler.Validation

/-!
# The base grammar's extension point

`validate_base_grammar` asks only that four texts occur somewhere in the base
grammar, and reports the first one missing.  `inject_extension_rules` asks for
more, and only when there are extension rules to inject: the text
`annotated_stmt = {`, the text `annotation* ~ (send_stmt | broadcast_stmt`, and
a `)` after the latter.

The statement names go in before the first `)` at or after the first
occurrence of the alternatives text, in the middle of a line, and hold
neither `=` nor a newline.  So when that line holds no `=` either, the
duplicate check reads the composed grammar's names as the base grammar's
names followed by the extensions' names, and an extension cannot redefine a
rule the base grammar defines.
-/

namespace RumpsteakAura

open Str

namespace GrammarComposer

variable {P : Type}

/-! ## Base validation -/

theorem requiredRules_find?_eq_some_iff (grammar rule : List Char) :
    requiredRules.find? (fun rule => !contains grammar rule) = some rule ↔
      ∃ before after, requiredRules = before ++ rule :: after ∧
        (∀ present ∈ before, List.IsInfix present grammar) ∧
        ¬ List.IsInfix rule grammar := by
  simp only [List.find?_eq_some, Bool.not_not, contains_eq_true_iff, Bool.not_eq_true',
    ← Bool.not_eq_true]
  constructor
  · rintro ⟨absent, before, after, split, present⟩
    exact ⟨before, after, split, present, absent⟩
  · rintro ⟨before, after, split, present, absent⟩
    exact ⟨absent, before, after, split, present⟩

/-- `validate_base_grammar` accepts exactly the grammars that contain every
required text. -/
theorem validateBaseGrammar_eq_ok_iff (grammar : List Char) :
    validateBaseGrammar grammar = .ok () ↔
      ∀ rule ∈ requiredRules, List.IsInfix rule grammar := by
  unfold validateBaseGrammar
  split
  · next rule found =>
      have missing := List.find?_some found
      simp only [Bool.not_eq_true', contains] at missing
      simp only [reduceCtorEq, false_iff, not_forall]
      exact ⟨rule, List.mem_of_find?_eq_some found,
        by rwa [← find_isSome_iff, Bool.not_eq_true]⟩
  · next none => simpa [contains_eq_true_iff] using none

/-- Otherwise it names the first required text, in the order of
`requiredRules`, that the grammar lacks. -/
theorem validateBaseGrammar_eq_error_iff (grammar message : List Char) :
    validateBaseGrammar grammar = .error (.invalidBaseGrammar message) ↔
      ∃ rule, (∃ before after, requiredRules = before ++ rule :: after ∧
        (∀ present ∈ before, List.IsInfix present grammar) ∧ ¬ List.IsInfix rule grammar) ∧
        message = "Missing required rule: ".toList ++ rule := by
  simp only [← requiredRules_find?_eq_some_iff]
  unfold validateBaseGrammar
  split
  · next rule found => simp [found, eq_comm]
  · next none => simp [none]

/-! ## Rule names across the splice -/

/-- A line without `=` defines no rule for the duplicate check. -/
theorem ruleDefinitionName_trim_of_not_mem {line : List Char} (noEquals : '=' ∉ line) :
    ruleDefinitionName (trim line) = none := by
  unfold ruleDefinitionName
  rw [if_neg]
  intro defining
  simp only [Bool.and_eq_true, contains_eq_true_iff] at defining
  exact noEquals (trim_subset _ (defining.1.subset (by decide)))

/-- The statement names `extract_extension_statements` returns hold neither
`=` nor a newline: each is trimmed from a line, before its first `=`. -/
theorem plain_of_mem_statementNames {rules name : List Char}
    (mem : name ∈ scanLines statementRuleName rules) : '=' ∉ name ∧ '\n' ∉ name := by
  obtain ⟨line, inLines, named⟩ := List.mem_filterMap.mp mem
  unfold statementRuleName at named
  split at named
  · cases named
    exact ⟨fun inName => not_mem_splitFirst '=' _ (trim_subset _ inName),
      fun inName => newline_not_mem_of_mem_lines inLines
        (trim_subset _ (splitFirst_subset _ _ (trim_subset _ inName)))⟩
  · cases named

/-- When the line around the splice point holds no `=`, splicing the
statement names in leaves the names the duplicate check records as they
were. -/
theorem ruleNames_insertAlternatives {baseGrammar rules : List Char} {alternativesEnd : Nat}
    (plainLine : '=' ∉ lineAround baseGrammar alternativesEnd) :
    ruleNames (insertAlternatives baseGrammar alternativesEnd
      (scanLines statementRuleName rules)) = ruleNames baseGrammar := by
  unfold insertAlternatives
  split
  · rfl
  · have separator : ∀ c ∈ " | ".toList, c ≠ '=' ∧ c ≠ '\n' := by decide
    have plain : ∀ c ∈ " | ".toList ++ " | ".toList.intercalate
        (scanLines statementRuleName rules), c ≠ '=' ∧ c ≠ '\n' := by
      intro c mem
      rcases List.mem_append.mp mem with inSeparator | inNames
      · exact separator c inSeparator
      · refine forall_mem_intercalate separator (fun name named c inName => ?_) c inNames
        obtain ⟨noEquals, noNewline⟩ := plain_of_mem_statementNames named
        exact ⟨fun same => noEquals (same ▸ inName), fun same => noNewline (same ▸ inName)⟩
    rw [List.append_assoc (baseGrammar.take _)]
    refine scanLines_insert rfl (fun newline => (plain _ newline).2 rfl)
      (ruleDefinitionName_trim_of_not_mem plainLine) (ruleDefinitionName_trim_of_not_mem ?_)
    rw [lineAround, List.mem_append, not_or] at plainLine
    simpa [plainLine] using fun inserted => (plain _ inserted).1 rfl

/-- When the line around the splice point holds no `=`, the duplicate check
of `compose` reads the base grammar's names followed by the extensions'. -/
theorem ruleNames_extendedGrammar (c : GrammarComposer P) {alternativesEnd : Nat}
    {composed : List Char} (found : findAlternativesEnd c.baseGrammar = .ok alternativesEnd)
    (plainLine : '=' ∉ lineAround c.baseGrammar alternativesEnd)
    (extended : c.extendedGrammar = .ok composed) :
    ruleNames composed =
      ruleNames c.baseGrammar ++ ruleNames (c.extensionRegistry.composeGrammar []) := by
  by_cases blankRules : trim (c.extensionRegistry.composeGrammar []) = []
  · simp only [extendedGrammar, blankRules, List.isEmpty_nil, Bool.not_true, Bool.false_eq_true,
      if_false, bind_eq_ok, pure_eq_ok] at extended
    obtain ⟨-, -, rfl⟩ := extended
    have noNames : ruleNames (c.extensionRegistry.composeGrammar []) = [] :=
      scanLines_eq_nil_of_blank rfl (trim_eq_nil_iff.mp blankRules)
    rw [noNames, List.append_nil]
  · obtain ⟨_, -, injected⟩ :=
      bind_eq_ok.mp ((extendedGrammar_of_nonblank c blankRules).symm.trans extended)
    obtain ⟨_, foundAgain, rfl⟩ := (injectExtensionRules_eq_ok_iff _ _ _).mp injected
    cases found.symm.trans foundAgain
    rw [ruleNames_append_header, ruleNames_insertAlternatives plainLine]

/-- When the line of the base grammar around the splice point holds no `=`,
the duplicate check of `compose` records the base grammar's names and then
the extensions' names in priority order.  So no registered extension can
define with ` = {` a name that the base grammar or another extension defines
that way: `compose` fails, with `DuplicateRule` unless the base grammar fails
its own checks. -/
theorem compose_rejects_base_redefinitions (c : GrammarComposer P) {alternativesEnd : Nat}
    (found : findAlternativesEnd c.baseGrammar = .ok alternativesEnd)
    (plainLine : '=' ∉ lineAround c.baseGrammar alternativesEnd) :
    (∀ composed, c.extendedGrammar = .ok composed →
      ruleNames composed = ruleNames c.baseGrammar ++
        (sortByPriority c.extensionRegistry.grammarExtensions.values).flatMap
          fun extension => ruleNames extension.grammarRules) ∧
    (¬ (ruleNames c.baseGrammar ++ c.extensionRegistry.grammarExtensions.values.flatMap
        fun extension => ruleNames extension.grammarRules).Nodup →
      (∃ message, c.compose = .error (.invalidBaseGrammar message)) ∨
        ∃ duplicate, c.compose = .error (.duplicateRule duplicate)) := by
  have recorded : ∀ composed, c.extendedGrammar = .ok composed →
      ruleNames composed = ruleNames c.baseGrammar ++
        (sortByPriority c.extensionRegistry.grammarExtensions.values).flatMap
          fun extension => ruleNames extension.grammarRules := fun composed extended => by
    rw [ruleNames_extendedGrammar c found plainLine extended]
    exact congrArg _ (scanLines_composeGrammar rfl _)
  refine ⟨recorded, fun repeated => ?_⟩
  cases extended : c.extendedGrammar with
  | error error =>
      obtain ⟨message, rfl⟩ := extendedGrammar_eq_error extended
      exact .inl ⟨message, (compose_eq_error_iff c _).mpr (.inl extended)⟩
  | ok composed =>
      have allRepeated : ¬ (ruleNames composed).Nodup := by
        rw [recorded composed extended,
          (((sortByPriority_perm _).flatMap_right _).append_left _).nodup_iff]
        exact repeated
      obtain ⟨duplicate, -, -, refused, -⟩ := validateComposedGrammar_of_not_nodup allRepeated
      exact .inr ⟨duplicate, (compose_eq_error_iff c _).mpr (.inr ⟨_, extended, refused⟩)⟩

/-- An extension that redefines the base grammar's `annotated_stmt`. -/
def annotatedStmtOverride : GrammarExtension where
  grammarRules := "annotated_stmt = \x7b\n    send_stmt\n\x7d".toList
  statementRules := ["annotated_stmt".toList]
  extensionId := "override".toList

/-- The composer with `annotatedStmtOverride` registered over
`statementGrammar`. -/
def overrideComposer : GrammarComposer Unit :=
  (new statementGrammar .insertionOrder .insertionOrder .insertionOrder).registerExtension
    annotatedStmtOverride

theorem compose_rejects_annotated_stmt_override :
    let names := ruleNames overrideComposer.baseGrammar ++
      overrideComposer.extensionRegistry.grammarExtensions.values.flatMap
        fun extension => ruleNames extension.grammarRules
    findAlternativesEnd overrideComposer.baseGrammar = .ok 64 ∧
      '=' ∉ lineAround overrideComposer.baseGrammar 64 ∧ ¬ names.Nodup ∧
      (∀ composed, overrideComposer.extendedGrammar = .ok composed →
        ruleNames composed = ruleNames overrideComposer.baseGrammar ++
          (sortByPriority overrideComposer.extensionRegistry.grammarExtensions.values).flatMap
            fun extension => ruleNames extension.grammarRules) ∧
      ((∃ message, overrideComposer.compose = .error (.invalidBaseGrammar message)) ∨
        ∃ duplicate, overrideComposer.compose = .error (.duplicateRule duplicate)) :=
  have conclusion := compose_rejects_base_redefinitions overrideComposer rfl (by decide)
  ⟨rfl, by decide, by decide, conclusion.1, conclusion.2 (by decide)⟩

end GrammarComposer

end RumpsteakAura
