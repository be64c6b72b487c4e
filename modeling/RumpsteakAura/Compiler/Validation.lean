import RumpsteakAura.Compiler.Composition

/-!
# The checks of `validate_composed_grammar`

The duplicate check records, line by line, the name before ` = {` of every
non-comment line containing ` = {`, and refuses at the first name it has seen
before.  The brace check compares the number of `{` characters with the number
of `}` characters of the whole text.

So `compose` never returns a grammar with two definitions of one name written
`name = {`, and it fails with `SyntaxError` exactly when the raw brace counts
differ, whatever the braces' order and whether or not they sit in string
literals or comments.  Nothing compares the `statement_rules()` of different
extensions, and no path of `compose` returns `ExtensionConflict`.

The last sections state what Pest itself counts as a rule definition and as
nested braces, and compare the two checks with those readings: definitions
with a modifier escape the duplicate check, quoted braces trip the brace
check, and nesting implies that the brace check passes on text whose braces
all stand outside literals and comments.
-/

namespace RumpsteakAura

open Str

namespace GrammarComposer

variable {P : Type}

/-- The names the duplicate check records, in line order. -/
def ruleNames (grammar : List Char) : List (List Char) :=
  scanLines ruleDefinitionName grammar

/-! ## The duplicate-name loop -/

theorem checkRuleNames_eq_ok_iff (seen lines : List (List Char)) :
    checkRuleNames seen lines = .ok () ↔
      (lines.filterMap fun line => ruleDefinitionName (trim line)).Nodup ∧
        ∀ name ∈ lines.filterMap (fun line => ruleDefinitionName (trim line)),
          name ∉ seen := by
  induction lines generalizing seen with
  | nil => simp [checkRuleNames]
  | cons line rest ih =>
      cases named : ruleDefinitionName (trim line) with
      | none => simp only [checkRuleNames, named, ih, List.filterMap_cons]
      | some name =>
          by_cases repeated : name ∈ seen
          · simp only [checkRuleNames, named, repeated, if_true, reduceCtorEq, false_iff, not_and]
            exact fun _ fresh =>
              fresh name (List.mem_filterMap.mpr ⟨line, List.mem_cons_self _ _, named⟩) repeated
          · simp only [checkRuleNames, named, repeated, if_false, ih, List.filterMap_cons,
              List.nodup_cons, List.mem_cons, not_or, forall_eq_or_imp]
            constructor
            · rintro ⟨nodup, fresh⟩
              exact ⟨⟨fun mem => (fresh name mem).1 rfl, nodup⟩, id,
                fun other mem => (fresh other mem).2⟩
            · rintro ⟨⟨absent, nodup⟩, -, fresh⟩
              exact ⟨nodup, fun other mem =>
                ⟨fun same => absent (same ▸ mem), fresh other mem⟩⟩

/-- A refusal of the loop names the first recorded name, in line order, that
was seen before or recorded earlier in the lines. -/
theorem checkRuleNames_eq_error {seen lines : List (List Char)} {error : GrammarCompositionError}
    (refused : checkRuleNames seen lines = .error error) :
    ∃ duplicate before after, error = .duplicateRule duplicate ∧
      lines.filterMap (fun line => ruleDefinitionName (trim line)) =
        before ++ duplicate :: after ∧
      before.Nodup ∧ (∀ name ∈ before, name ∉ seen) ∧
      (duplicate ∈ before ∨ duplicate ∈ seen) := by
  induction lines generalizing seen with
  | nil => simp [checkRuleNames] at refused
  | cons line rest ih =>
      cases named : ruleDefinitionName (trim line) with
      | none =>
          simp only [checkRuleNames, named] at refused
          simpa only [List.filterMap_cons, named] using ih refused
      | some name =>
          simp only [checkRuleNames, named] at refused
          simp only [List.filterMap_cons, named]
          split at refused
          · next repeated =>
              cases refused
              exact ⟨name, [], _, rfl, rfl, List.nodup_nil, by simp, .inr repeated⟩
          · next fresh =>
              obtain ⟨duplicate, before, after, rfl, split, distinct, unseen, earlier⟩ :=
                ih refused
              refine ⟨duplicate, name :: before, after, rfl, by rw [split]; rfl,
                List.nodup_cons.mpr
                  ⟨fun mem => unseen name mem (List.mem_cons_self _ _), distinct⟩,
                ?_, ?_⟩
              · rintro other (_ | ⟨_, later⟩)
                · exact fresh
                · exact fun inSeen => unseen other later (List.mem_cons_of_mem _ inSeen)
              · rcases earlier with inBefore | (_ | ⟨_, old⟩)
                · exact .inl (List.mem_cons_of_mem _ inBefore)
                · exact .inl (List.mem_cons_self _ _)
                · exact .inr old

/-- A name recorded before its repeat occurs twice. -/
theorem two_le_count_of_mem {α : Type} [BEq α] [LawfulBEq α] {before after : List α} {a : α}
    (earlier : a ∈ before) : 2 ≤ (before ++ a :: after).count a := by
  have := List.count_pos_iff.mpr earlier
  rw [List.count_append, List.count_cons_self]
  omega

/-! ## Validation of the composed grammar -/

theorem checkRuleNames_lines_eq_ok_iff (grammar : List Char) :
    checkRuleNames [] (lines grammar) = .ok () ↔ (ruleNames grammar).Nodup := by
  simpa [ruleNames, scanLines] using checkRuleNames_eq_ok_iff [] (lines grammar)

/-- With distinct recorded names, only the brace counts decide. -/
theorem validateComposedGrammar_of_nodup {grammar : List Char}
    (distinct : (ruleNames grammar).Nodup) :
    validateComposedGrammar grammar =
      if grammar.count '\x7b' ≠ grammar.count '\x7d' then
        .error (.syntaxError "Unbalanced braces in composed grammar".toList)
      else .ok () := by
  simp only [validateComposedGrammar, (checkRuleNames_lines_eq_ok_iff grammar).mpr distinct]
  rfl

/-- Recorded names that repeat are refused with `DuplicateRule`, for the first
recorded name, in line order, that repeats an earlier one. -/
theorem validateComposedGrammar_of_not_nodup {grammar : List Char}
    (repeated : ¬ (ruleNames grammar).Nodup) :
    ∃ duplicate before after,
      validateComposedGrammar grammar = .error (.duplicateRule duplicate) ∧
      ruleNames grammar = before ++ duplicate :: after ∧ before.Nodup ∧
      duplicate ∈ before := by
  cases checked : checkRuleNames [] (lines grammar) with
  | ok => exact absurd ((checkRuleNames_lines_eq_ok_iff grammar).mp checked) repeated
  | error error =>
      obtain ⟨duplicate, before, after, rfl, split, distinct, -, earlier⟩ :=
        checkRuleNames_eq_error checked
      exact ⟨duplicate, before, after, by simp only [validateComposedGrammar, checked]; rfl,
        split, distinct, earlier.resolve_right (List.not_mem_nil _)⟩

theorem validateComposedGrammar_eq_ok_iff (grammar : List Char) :
    validateComposedGrammar grammar = .ok () ↔
      (ruleNames grammar).Nodup ∧ grammar.count '\x7b' = grammar.count '\x7d' := by
  by_cases distinct : (ruleNames grammar).Nodup
  · rw [validateComposedGrammar_of_nodup distinct]
    by_cases balanced : grammar.count '\x7b' = grammar.count '\x7d' <;> simp [balanced, distinct]
  · obtain ⟨_, _, _, refused, -⟩ := validateComposedGrammar_of_not_nodup distinct
    simp [refused, distinct]

theorem validateComposedGrammar_eq_syntaxError_iff (grammar message : List Char) :
    validateComposedGrammar grammar = .error (.syntaxError message) ↔
      (ruleNames grammar).Nodup ∧ grammar.count '\x7b' ≠ grammar.count '\x7d' ∧
        message = "Unbalanced braces in composed grammar".toList := by
  by_cases distinct : (ruleNames grammar).Nodup
  · rw [validateComposedGrammar_of_nodup distinct]
    by_cases balanced : grammar.count '\x7b' = grammar.count '\x7d' <;>
      simp [balanced, distinct, eq_comm]
  · obtain ⟨_, _, _, refused, -⟩ := validateComposedGrammar_of_not_nodup distinct
    simp [refused, distinct]

/-- A refusal is a `DuplicateRule` for a name recorded twice, or a
`SyntaxError`. -/
theorem validateComposedGrammar_eq_error {grammar : List Char} {error : GrammarCompositionError}
    (refused : validateComposedGrammar grammar = .error error) :
    (∃ name, error = .duplicateRule name ∧ 2 ≤ (ruleNames grammar).count name) ∨
      ∃ message, error = .syntaxError message := by
  by_cases distinct : (ruleNames grammar).Nodup
  · rw [validateComposedGrammar_of_nodup distinct] at refused
    split at refused <;> cases refused
    exact .inr ⟨_, rfl⟩
  · obtain ⟨duplicate, before, after, other, split, -, earlier⟩ :=
      validateComposedGrammar_of_not_nodup distinct
    rw [other] at refused
    cases refused
    exact .inl ⟨duplicate, rfl, by rw [split]; exact two_le_count_of_mem earlier⟩

/-! ## Errors before validation -/

theorem okOr_eq_error {ε α : Type} {value : Option α} {fallback error : ε}
    (failed : okOr value fallback = .error error) : error = fallback := by
  cases value <;> simp [okOr] at failed
  exact failed.symm

theorem validateBaseGrammar_eq_error {grammar : List Char} {error : GrammarCompositionError}
    (failed : validateBaseGrammar grammar = .error error) :
    ∃ message, error = .invalidBaseGrammar message := by
  unfold validateBaseGrammar at failed
  split at failed <;> cases failed
  exact ⟨_, rfl⟩

theorem findAlternativesEnd_eq_error {grammar : List Char} {error : GrammarCompositionError}
    (failed : findAlternativesEnd grammar = .error error) :
    ∃ message, error = .invalidBaseGrammar message := by
  simp only [findAlternativesEnd, bind_eq_error] at failed
  rcases failed with first | ⟨_, -, second | ⟨_, -, third | ⟨_, -, built⟩⟩⟩
  · exact ⟨_, okOr_eq_error first⟩
  · exact ⟨_, okOr_eq_error second⟩
  · exact ⟨_, okOr_eq_error third⟩
  · cases built

theorem injectExtensionRules_eq_error {baseGrammar extensionRules : List Char}
    {error : GrammarCompositionError}
    (failed : injectExtensionRules baseGrammar extensionRules = .error error) :
    findAlternativesEnd baseGrammar = .error error := by
  simp only [injectExtensionRules, bind_eq_error] at failed
  rcases failed with search | ⟨_, -, extracted | ⟨_, -, built⟩⟩
  · exact search
  · cases extracted
  · cases built

/-- Only `InvalidBaseGrammar` can stop `compose` before its final validation. -/
theorem extendedGrammar_eq_error {c : GrammarComposer P} {error : GrammarCompositionError}
    (failed : c.extendedGrammar = .error error) :
    ∃ message, error = .invalidBaseGrammar message := by
  simp only [extendedGrammar, bind_eq_error] at failed
  rcases failed with base | ⟨_, -, extended⟩
  · exact validateBaseGrammar_eq_error base
  · split at extended
    · exact findAlternativesEnd_eq_error (injectExtensionRules_eq_error extended)
    · cases extended

/-! ## `compose` -/

/-- `compose` fails with `SyntaxError` exactly when the checks before it pass
and the composed text has different numbers of `{` and `}` characters, all
characters counted, inside string literals and comments too. -/
theorem compose_eq_syntaxError_iff (c : GrammarComposer P) (message : List Char) :
    c.compose = .error (.syntaxError message) ↔
      ∃ composed, c.extendedGrammar = .ok composed ∧ (ruleNames composed).Nodup ∧
        composed.count '\x7b' ≠ composed.count '\x7d' ∧
        message = "Unbalanced braces in composed grammar".toList := by
  rw [compose_eq_error_iff]
  cases extended : c.extendedGrammar with
  | error error =>
      obtain ⟨_, rfl⟩ := extendedGrammar_eq_error extended
      simp
  | ok composed => simp [validateComposedGrammar_eq_syntaxError_iff]

/-- `compose` fails only with `InvalidBaseGrammar`, `DuplicateRule` or
`SyntaxError`: it never returns `ExtensionConflict` or `IoError`. -/
theorem compose_error_kinds (c : GrammarComposer P) (error : GrammarCompositionError)
    (failed : c.compose = .error error) :
    (∃ message, error = .invalidBaseGrammar message) ∨
      (∃ name, error = .duplicateRule name) ∨ ∃ message, error = .syntaxError message := by
  rcases (compose_eq_error_iff c error).mp failed with early | ⟨_, -, validated⟩
  · exact .inl (extendedGrammar_eq_error early)
  · exact .inr ((validateComposedGrammar_eq_error validated).imp_left
      fun ⟨name, named, _⟩ => ⟨name, named⟩)

/-- `compose` never returns a grammar in which a name has two definitions
written `name = {`: it fails with `DuplicateRule` for the first recorded
name, in line order, that repeats an earlier one. -/
theorem compose_rejects_duplicate_definitions (c : GrammarComposer P) (composed : List Char)
    (extended : c.extendedGrammar = .ok composed) (name : List Char)
    (twice : 2 ≤ (ruleNames composed).count name) :
    ∃ duplicate before after, c.compose = .error (.duplicateRule duplicate) ∧
      ruleNames composed = before ++ duplicate :: after ∧ before.Nodup ∧
      duplicate ∈ before := by
  have repeated : ¬ (ruleNames composed).Nodup := fun distinct => by
    have atMostOnce : (ruleNames composed).count name ≤ 1 := by
      convert List.nodup_iff_count_le_one.mp distinct name
    omega
  obtain ⟨duplicate, before, after, refused, first⟩ :=
    validateComposedGrammar_of_not_nodup repeated
  exact ⟨duplicate, before, after,
    (compose_eq_error_iff c _).mpr (.inr ⟨composed, extended, refused⟩), first⟩

theorem ruleNames_append_header (front rules : List Char) :
    ruleNames (front ++ "\n// Extension Rules\n".toList ++ rules) =
      ruleNames front ++ ruleNames rules := by
  have blank : ruleDefinitionName [] = none := rfl
  have header : "\n// Extension Rules\n".toList ++ rules =
      '\n' :: ("// Extension Rules".toList ++ '\n' :: rules) := rfl
  have comment : ruleNames "// Extension Rules".toList = [] := by decide
  simp only [ruleNames] at comment ⊢
  rw [List.append_assoc, header, scanLines_append_newline blank, scanLines_append_newline blank,
    comment, List.nil_append]

/-- Registered extensions never together define a name twice with ` = {`:
`compose` then fails, with `DuplicateRule` unless the base grammar already
fails its checks. -/
theorem compose_rejects_extension_redefinitions (c : GrammarComposer P)
    (repeated : ¬ (c.extensionRegistry.grammarExtensions.values.flatMap
      fun extension => ruleNames extension.grammarRules).Nodup) :
    (∃ message, c.compose = .error (.invalidBaseGrammar message)) ∨
      ∃ duplicate, c.compose = .error (.duplicateRule duplicate) := by
  have blank : ruleDefinitionName [] = none := rfl
  have extensionNames : ruleNames (c.extensionRegistry.composeGrammar []) =
      (sortByPriority c.extensionRegistry.grammarExtensions.values).flatMap
        fun extension => ruleNames extension.grammarRules :=
    scanLines_composeGrammar blank _
  have sortedRepeated : ¬ (ruleNames (c.extensionRegistry.composeGrammar [])).Nodup := by
    rw [extensionNames, ((sortByPriority_perm _).flatMap_right _).nodup_iff]
    exact repeated
  have nonBlank : trim (c.extensionRegistry.composeGrammar []) ≠ [] := fun blankRules => by
    apply sortedRepeated
    rw [ruleNames, scanLines_eq_nil_of_blank blank (trim_eq_nil_iff.mp blankRules)]
    exact List.nodup_nil
  cases extended : c.extendedGrammar with
  | error error =>
      obtain ⟨message, rfl⟩ := extendedGrammar_eq_error extended
      exact .inl ⟨message, (compose_eq_error_iff c _).mpr (.inl extended)⟩
  | ok composed =>
      obtain ⟨_, -, injected⟩ :=
        bind_eq_ok.mp ((extendedGrammar_of_nonblank c nonBlank).symm.trans extended)
      obtain ⟨_, -, rfl⟩ := (injectExtensionRules_eq_ok_iff _ _ _).mp injected
      have allRepeated : ∀ front, ¬ (ruleNames (front ++ "\n// Extension Rules\n".toList ++
          c.extensionRegistry.composeGrammar [])).Nodup := fun front distinct => by
        rw [ruleNames_append_header, List.nodup_append] at distinct
        exact sortedRepeated distinct.2.1
      obtain ⟨duplicate, -, -, refused, -⟩ :=
        validateComposedGrammar_of_not_nodup (allRepeated _)
      exact .inr ⟨duplicate, (compose_eq_error_iff c _).mpr (.inr ⟨_, extended, refused⟩)⟩

/-- An extension defining `x_stmt`, on one line, as the literal `alternative`. -/
def xStmtExtension (extensionId alternative : List Char) : GrammarExtension where
  grammarRules := "x_stmt = \x7b \"".toList ++ alternative ++ "\" \x7d".toList
  statementRules := ["x_stmt".toList]
  extensionId := extensionId

/-- `xStmtExtension` registered twice, under two ids, over `statementGrammar`. -/
def xStmtComposer : GrammarComposer Unit :=
  [xStmtExtension "first".toList "a".toList, xStmtExtension "second".toList "b".toList].foldl
    registerExtension (new statementGrammar .insertionOrder .insertionOrder .insertionOrder)

theorem compose_rejects_two_x_stmt_definitions :
    let composed := xStmtComposer.extendedGrammar.toOption.getD []
    xStmtComposer.extendedGrammar = .ok composed ∧
      2 ≤ (ruleNames composed).count "x_stmt".toList ∧
      ∃ duplicate before after, xStmtComposer.compose = .error (.duplicateRule duplicate) ∧
        ruleNames composed = before ++ duplicate :: after ∧ before.Nodup ∧
        duplicate ∈ before :=
  ⟨rfl, by decide, compose_rejects_duplicate_definitions _ _ rfl "x_stmt".toList (by decide)⟩

theorem compose_error_kinds_of_two_x_stmt_definitions :
    xStmtComposer.compose = .error (.duplicateRule "x_stmt".toList) ∧
      let error := GrammarCompositionError.duplicateRule "x_stmt".toList
      ((∃ message, error = .invalidBaseGrammar message) ∨
        (∃ name, error = .duplicateRule name) ∨ ∃ message, error = .syntaxError message) :=
  ⟨rfl, compose_error_kinds xStmtComposer _ rfl⟩

theorem compose_rejects_x_stmt_redefinition :
    ¬ (xStmtComposer.extensionRegistry.grammarExtensions.values.flatMap
        fun extension => ruleNames extension.grammarRules).Nodup ∧
      ((∃ message, xStmtComposer.compose = .error (.invalidBaseGrammar message)) ∨
        ∃ duplicate, xStmtComposer.compose = .error (.duplicateRule duplicate)) :=
  ⟨by decide, compose_rejects_extension_redefinitions xStmtComposer (by decide)⟩

/-! ## Rule definitions as Pest reads them -/

/-- A character of a Pest rule name. -/
def isIdentChar (c : Char) : Bool :=
  c.isAlphanum || c == '_'

/-- The rule a trimmed line defines as Pest reads it: a rule name, `=` with
any spacing around it, an optional modifier `_`, `@`, `$` or `!`, then `{`.
A comment line defines nothing, since `//` is not part of a rule name. -/
def pestDefinitionName (line : List Char) : Option (List Char) :=
  match line.span (· != '=') with
  | (before, _ :: after) =>
      let opensBody :=
        match after.dropWhile isWhitespace with
        | '\x7b' :: _ => true
        | modifier :: '\x7b' :: _ => "_@$!".toList.contains modifier
        | _ => false
      if !(trim before).isEmpty && (trim before).all isIdentChar && opensBody then
        some (trim before)
      else none
  | _ => none

/-- The rules a grammar text defines, one entry per definition. -/
def pestRuleNames (grammar : List Char) : List (List Char) :=
  scanLines pestDefinitionName grammar

example :
    let text := "a = _\x7b x \x7d\nb=\x7b y \x7d\n// c = \x7b z \x7d\nd = \x7b w \x7d".toList
    pestRuleNames text = ["a".toList, "b".toList, "d".toList] ∧
      ruleNames text = ["d".toList] := by
  decide

/-- An extension defining one rule twice, with the modifiers `_` and `@`. -/
def keywordExtension : GrammarExtension where
  grammarRules := "keyword = _\x7b \"kw\" \x7d\nkeyword = @\x7b \"kw\" \x7d".toList
  statementRules := []
  extensionId := "keywords".toList

/-- An extension that declares the test extension's `timeout_stmt` as a
statement rule of its own and defines only `timeout_alias`. -/
def timeoutAliasExtension : GrammarExtension where
  grammarRules := "timeout_alias = \x7b timeout_stmt \x7d".toList
  statementRules := ["timeout_stmt".toList]
  extensionId := "timeout_alias".toList

/-- `compose` accepts a rule defined twice when the definitions carry a
modifier, and two extensions of different ids declaring one statement rule. -/
theorem compose_accepts_colliding_rules :
    (¬ ∀ (P : Type) (baseGrammar : List Char)
        (grammarSeed : RandomState (List Char) GrammarExtension)
        (parserSeed : RandomState (List Char) P) (ruleSeed : RandomState (List Char) (List Char))
        (extensions : List GrammarExtension) (composed name : List Char),
      let c := extensions.foldl registerExtension (new baseGrammar grammarSeed parserSeed ruleSeed)
      c.extendedGrammar = .ok composed → 2 ≤ (pestRuleNames composed).count name →
      c.compose = .error (.duplicateRule name) ∨
        ∃ message, c.compose = .error (.extensionConflict message) ∧ name.IsInfix message) ∧
    ¬ ∀ (P : Type) (baseGrammar : List Char)
        (grammarSeed : RandomState (List Char) GrammarExtension)
        (parserSeed : RandomState (List Char) P) (ruleSeed : RandomState (List Char) (List Char))
        (first second : GrammarExtension) (name : List Char),
      first.extensionId ≠ second.extensionId → name ∈ first.statementRules →
        name ∈ second.statementRules →
      let c := [first, second].foldl registerExtension
        (new baseGrammar grammarSeed parserSeed ruleSeed)
      c.compose = .error (.duplicateRule name) ∨
        ∃ message, c.compose = .error (.extensionConflict message) ∧ name.IsInfix message := by
  constructor
  · intro rejects
    obtain ⟨accepted, composeOk⟩ : ∃ accepted, ([keywordExtension].foldl registerExtension
        (new statementGrammar .insertionOrder .insertionOrder .insertionOrder :
          GrammarComposer Unit)).compose = .ok accepted := ⟨_, rfl⟩
    rcases rejects Unit statementGrammar .insertionOrder .insertionOrder .insertionOrder
      [keywordExtension] _ "keyword".toList rfl (by decide) with refused | ⟨_, refused, -⟩ <;>
      cases composeOk.symm.trans refused
  · intro rejects
    obtain ⟨accepted, composeOk⟩ : ∃ accepted,
        ([timeoutExtension, timeoutAliasExtension].foldl registerExtension
          (new statementGrammar .insertionOrder .insertionOrder .insertionOrder :
            GrammarComposer Unit)).compose = .ok accepted := ⟨_, rfl⟩
    rcases rejects Unit statementGrammar .insertionOrder .insertionOrder .insertionOrder
      timeoutExtension timeoutAliasExtension "timeout_stmt".toList (by decide) (by decide)
      (by decide) with refused | ⟨_, refused, -⟩ <;>
      cases composeOk.symm.trans refused

/-! ## Brace nesting outside literals and comments -/

/-- Where a scan of Pest text stands: in code, in code just after a `/`, in a
literal quoted by `close`, just after a backslash in such a literal, or in a
`//` comment. -/
inductive LexState
  | code
  | slash
  | quoted (close : Char)
  | escaped (close : Char)
  | comment
deriving DecidableEq

/-- One character read in code, with `depth` braces open. -/
def codeStep (depth : Nat) (c : Char) : Option (LexState × Nat) :=
  if c = '\x22' ∨ c = '\x27' then some (.quoted c, depth)
  else if c = '/' then some (.slash, depth)
  else if c = '\x7b' then some (.code, depth + 1)
  else if c = '\x7d' then (if depth = 0 then none else some (.code, depth - 1))
  else some (.code, depth)

/-- One character of the scan, from a state and the number of braces open in
code; `none` once a `}` closes nothing. -/
def lexStep : LexState × Nat → Char → Option (LexState × Nat)
  | (.code, depth), c => codeStep depth c
  | (.slash, depth), c => if c = '/' then some (.comment, depth) else codeStep depth c
  | (.quoted close, depth), c =>
      if c = '\x5c' then some (.escaped close, depth)
      else some (if c = close then .code else .quoted close, depth)
  | (.escaped close, depth), _ => some (.quoted close, depth)
  | (.comment, depth), c => some (if c = '\n' then .code else .comment, depth)

/-- The braces of `text` outside quoted literals and `//` comments are
properly nested. -/
def BracesNested (text : List Char) : Prop :=
  (text.foldlM lexStep (.code, 0)).map Prod.snd = some 0

instance : DecidablePred BracesNested :=
  fun text => inferInstanceAs (Decidable ((text.foldlM lexStep (.code, 0)).map Prod.snd = some 0))

example :
    BracesNested "a = \x7b \"\x7b\" \x7d // \x7d\n".toList ∧
      ¬ BracesNested "\x7d\x7b".toList := by
  decide

/-- Whether every brace of `text` is read in code by the scan from `start`:
none stands in a literal or a comment. -/
def bracesInCode : LexState × Nat → List Char → Bool
  | _, [] => true
  | start, c :: rest =>
      decide ((c = '\x7b' ∨ c = '\x7d') → start.1 = .code ∨ start.1 = .slash) &&
        match lexStep start c with
        | some next => bracesInCode next rest
        | none => true

/-- Every brace of `text` stands outside literals and comments. -/
def BracesInCode (text : List Char) : Prop :=
  bracesInCode (.code, 0) text = true

instance : DecidablePred BracesInCode :=
  fun text => inferInstanceAs (Decidable (bracesInCode (.code, 0) text = true))

example :
    BracesInCode "a = \x7b \"x\" \x7d // c\n".toList ∧
      ¬ BracesInCode "a = \x7b \"\x7b\" \x7d".toList := by
  decide

/-- A step in code moves the depth by the brace it reads. -/
theorem codeStep_depth {depth : Nat} {c : Char} {next : LexState × Nat}
    (stepped : codeStep depth c = some next) :
    depth + [c].count '\x7b' = next.2 + [c].count '\x7d' := by
  by_cases opening : c = '\x7b'
  · subst opening
    cases stepped
    rfl
  by_cases closing : c = '\x7d'
  · subst closing
    cases depth with
    | zero => cases stepped
    | succ depth =>
        cases stepped
        rfl
  have kept : next.2 = depth := by
    unfold codeStep at stepped
    split_ifs at stepped <;> cases stepped <;> rfl
  simp [kept, List.count_singleton, opening, closing]

/-- A step of the scan moves the depth by the brace it reads, when the brace
is read in code. -/
theorem lexStep_depth {state : LexState} {depth : Nat} {c : Char} {next : LexState × Nat}
    (stepped : lexStep (state, depth) c = some next)
    (inCode : (c = '\x7b' ∨ c = '\x7d') → state = .code ∨ state = .slash) :
    depth + [c].count '\x7b' = next.2 + [c].count '\x7d' := by
  cases state with
  | code => exact codeStep_depth stepped
  | slash =>
      simp only [lexStep] at stepped
      split_ifs at stepped with secondSlash
      · cases stepped
        subst secondSlash
        rfl
      · exact codeStep_depth stepped
  | quoted close | escaped close | comment =>
      have noBrace : c ≠ '\x7b' ∧ c ≠ '\x7d' := by
        constructor <;> intro brace <;> simpa using inCode (by simp [brace])
      have kept : next.2 = depth := by
        simp only [lexStep] at stepped
        repeat' split at stepped
        all_goals cases stepped; rfl
      simp [kept, List.count_singleton, noBrace]

/-- Over a text whose braces are all read in code, the scan's depth moves by
the number of `{` less the number of `}`. -/
theorem foldlM_lexStep_depth {text : List Char} {start final : LexState × Nat}
    (inCode : bracesInCode start text = true)
    (scanned : text.foldlM lexStep start = some final) :
    start.2 + text.count '\x7b' = final.2 + text.count '\x7d' := by
  induction text generalizing start with
  | nil =>
      cases scanned
      rfl
  | cons c rest ih =>
      obtain ⟨next, stepped, restScanned⟩ := Option.bind_eq_some.mp scanned
      simp only [bracesInCode, stepped, Bool.and_eq_true, decide_eq_true_eq] at inCode
      have moved := lexStep_depth stepped inCode.1
      have := ih inCode.2 restScanned
      rw [List.count_cons, List.count_cons]
      simp only [List.count_singleton] at moved
      omega

/-- Nested braces, all outside literals and comments, are balanced. -/
theorem count_braces_eq_of_nested {text : List Char} (inCode : BracesInCode text)
    (nested : BracesNested text) : text.count '\x7b' = text.count '\x7d' := by
  obtain ⟨⟨state, depth⟩, scanned, closed⟩ := Option.map_eq_some'.mp nested
  have := foldlM_lexStep_depth inCode scanned
  simp only at closed
  omega

/-- An extension whose rule matches a lone `{` literal: its code braces nest. -/
def braceLiteralExtension : GrammarExtension where
  grammarRules := "open_brace = \x7b \"\x7b\" \x7d".toList
  statementRules := []
  extensionId := "open_brace".toList

/-- An extension whose text closes a brace before opening one. -/
def reversedBracesExtension : GrammarExtension where
  grammarRules := "reversed = \x7d \"r\" \x7b".toList
  statementRules := []
  extensionId := "reversed".toList

/-- The brace check is not a nesting check: it refuses well-nested rules with
a quoted `{`, and accepts braces in the wrong order. -/
theorem compose_brace_check_ignores_nesting :
    (¬ ∀ (P : Type) (baseGrammar : List Char)
        (grammarSeed : RandomState (List Char) GrammarExtension)
        (parserSeed : RandomState (List Char) P) (ruleSeed : RandomState (List Char) (List Char))
        (extensions : List GrammarExtension) (composed : List Char),
      let c := extensions.foldl registerExtension (new baseGrammar grammarSeed parserSeed ruleSeed)
      c.extendedGrammar = .ok composed →
        (∃ message, c.compose = .error (.syntaxError message)) → ¬ BracesNested composed) ∧
    ¬ ∀ (P : Type) (baseGrammar : List Char)
        (grammarSeed : RandomState (List Char) GrammarExtension)
        (parserSeed : RandomState (List Char) P) (ruleSeed : RandomState (List Char) (List Char))
        (extensions : List GrammarExtension) (composed : List Char),
      let c := extensions.foldl registerExtension (new baseGrammar grammarSeed parserSeed ruleSeed)
      c.extendedGrammar = .ok composed →
        ¬ BracesNested composed → ∃ message, c.compose = .error (.syntaxError message) := by
  constructor
  · intro refusesOnlyTangled
    exact refusesOnlyTangled Unit statementGrammar .insertionOrder .insertionOrder .insertionOrder
      [braceLiteralExtension] _ rfl ⟨_, rfl⟩ (by decide)
  · intro refusesTangled
    obtain ⟨accepted, composeOk⟩ : ∃ accepted, ([reversedBracesExtension].foldl
        registerExtension (new statementGrammar .insertionOrder .insertionOrder .insertionOrder :
          GrammarComposer Unit)).compose = .ok accepted := ⟨_, rfl⟩
    obtain ⟨_, refused⟩ := refusesTangled Unit statementGrammar .insertionOrder .insertionOrder
      .insertionOrder [reversedBracesExtension] _ rfl (by decide)
    cases composeOk.symm.trans refused

end GrammarComposer

end RumpsteakAura
