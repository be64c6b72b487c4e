import RumpsteakAura.Extensions.Runs
import RumpsteakAura.Text.Str

/-!
# Dynamic Pest grammar composition

`GrammarComposer::compose` checks that the base grammar has its extension
point, asks the registry for the extension rules of every registered
extension, splices the statement rules it finds in that text into the
alternatives of `annotated_stmt`, appends the extension rules, and checks the
result for duplicate rule names and unbalanced braces.

All the text processing is by line scans and substring search.  Which rule
names are spliced is decided by the layout of the extension text, not by the
extensions' `statement_rules()`; the duplicate check sees only lines written
with ` = {`; the brace check counts characters.
-/

namespace RumpsteakAura

open Str

/-- `GrammarCompositionError`. -/
inductive GrammarCompositionError
  | invalidBaseGrammar (message : List Char)
  | duplicateRule (name : List Char)
  | syntaxError (message : List Char)
  | extensionConflict (message : List Char)
  | ioError (message : List Char)
deriving DecidableEq

/-- `Option::ok_or`. -/
def okOr {ε α : Type} : Option α → ε → Except ε α
  | some value, _ => .ok value
  | none, error => .error error

@[simp]
theorem pure_eq_ok {ε α : Type} {a b : α} : (pure a : Except ε α) = .ok b ↔ a = b :=
  ⟨Except.ok.inj, congrArg _⟩

theorem bind_eq_ok {ε α β : Type} {x : Except ε α} {f : α → Except ε β} {b : β} :
    x >>= f = .ok b ↔ ∃ a, x = .ok a ∧ f a = .ok b := by
  cases x <;> simp [bind, Except.bind]

theorem bind_eq_error {ε α β : Type} {x : Except ε α} {f : α → Except ε β} {e : ε} :
    x >>= f = .error e ↔ x = .error e ∨ ∃ a, x = .ok a ∧ f a = .error e := by
  cases x <;> simp [bind, Except.bind]

/-- `GrammarComposer`. -/
structure GrammarComposer (P : Type) where
  baseGrammar : List Char
  extensionRegistry : ExtensionRegistry P

namespace GrammarComposer

/-! ## Text passes -/

/-- The rule name one trimmed line of extension rules adds to the statement
alternatives: the text before its first `=`, when the line ends with
`_stmt = {`. -/
def statementRuleName (line : List Char) : Option (List Char) :=
  if contains line "=".toList && "_stmt = \x7b".toList.isSuffixOf line then
    some (trim (splitFirst line "=".toList))
  else none

/-- `extract_extension_statements`. -/
def extractExtensionStatements (extensionRules : List Char) :
    Except GrammarCompositionError (List (List Char)) :=
  .ok (scanLines statementRuleName extensionRules)

/-- The searches of `inject_extension_rules`: the position of the `)` that
closes the statement alternatives. -/
def findAlternativesEnd (baseGrammar : List Char) : Except GrammarCompositionError Nat := do
  let _statementRuleStart ← okOr (find "annotated_stmt = \x7b".toList baseGrammar)
    (.invalidBaseGrammar "Could not find annotated_stmt rule".toList)
  let alternativesStart ← okOr (find "annotation* ~ (send_stmt | broadcast_stmt".toList baseGrammar)
    (.invalidBaseGrammar "Could not find statement alternatives".toList)
  let offset ← okOr (find ")".toList (baseGrammar.drop alternativesStart))
    (.invalidBaseGrammar "Could not find end of statement alternatives".toList)
  pure (offset + alternativesStart)

/-- The `format!` of `inject_extension_rules`: `statements` joined by ` | `
and inserted, after a ` | `, before position `alternativesEnd`; nothing
changes when there are no statements. -/
def insertAlternatives (baseGrammar : List Char) (alternativesEnd : Nat)
    (statements : List (List Char)) : List Char :=
  if statements.isEmpty then baseGrammar
  else
    baseGrammar.take alternativesEnd ++ " | ".toList ++ " | ".toList.intercalate statements ++
      baseGrammar.drop alternativesEnd

/-- `inject_extension_rules`. -/
def injectExtensionRules (baseGrammar extensionRules : List Char) :
    Except GrammarCompositionError (List Char) := do
  let alternativesEnd ← findAlternativesEnd baseGrammar
  let extensionStatements ← extractExtensionStatements extensionRules
  pure (insertAlternatives baseGrammar alternativesEnd extensionStatements ++ ['\n'] ++
    "// Extension Rules\n".toList ++ extensionRules)

/-- The texts `validate_base_grammar` requires. -/
def requiredRules : List (List Char) :=
  ["annotated_stmt = \x7b".toList, "annotation* ~".toList, "send_stmt".toList,
    "broadcast_stmt".toList]

/-- `validate_base_grammar`: the first required text that is missing is
reported. -/
def validateBaseGrammar (grammar : List Char) : Except GrammarCompositionError Unit :=
  match requiredRules.find? fun rule => !contains grammar rule with
  | some rule => .error (.invalidBaseGrammar ("Missing required rule: ".toList ++ rule))
  | none => .ok ()

/-- The rule name a trimmed line defines for the duplicate check: the text
before its first ` = {`, unless the line is a comment. -/
def ruleDefinitionName (line : List Char) : Option (List Char) :=
  if contains line " = \x7b".toList && !"//".toList.isPrefixOf line then
    some (trim (splitFirst line " = \x7b".toList))
  else none

/-- The duplicate-name loop of `validate_composed_grammar`, over the lines
still to read, with the names seen so far. -/
def checkRuleNames (ruleNames : List (List Char)) :
    List (List Char) → Except GrammarCompositionError Unit
  | [] => .ok ()
  | line :: rest =>
      match ruleDefinitionName (trim line) with
      | some ruleName =>
          if ruleName ∈ ruleNames then .error (.duplicateRule ruleName)
          else checkRuleNames (ruleName :: ruleNames) rest
      | none => checkRuleNames ruleNames rest

/-- `validate_composed_grammar`. -/
def validateComposedGrammar (grammar : List Char) : Except GrammarCompositionError Unit := do
  checkRuleNames [] (lines grammar)
  if grammar.count '\x7b' ≠ grammar.count '\x7d' then
    .error (.syntaxError "Unbalanced braces in composed grammar".toList)
  else pure ()

/-! ## The composer -/

variable {P : Type}

/-- `GrammarComposer::new`.  The base grammar is
`include_str!("choreography.pest")`, a file that is not among the sources, so
it is a parameter, as are the seeds of the registry's maps. -/
def new (baseGrammar : List Char) (grammarSeed : RandomState (List Char) GrammarExtension)
    (parserSeed : RandomState (List Char) P) (ruleSeed : RandomState (List Char) (List Char)) :
    GrammarComposer P :=
  ⟨baseGrammar, .new grammarSeed parserSeed ruleSeed⟩

/-- `register_extension`. -/
def registerExtension (c : GrammarComposer P) (extension : GrammarExtension) :
    GrammarComposer P :=
  { c with extensionRegistry := c.extensionRegistry.registerGrammar extension }

/-- `register_extension_from_trait`: registers nothing and succeeds. -/
def registerExtensionFromTrait (c : GrammarComposer P) (_extension : GrammarExtension) :
    GrammarComposer P × Except GrammarCompositionError Unit :=
  (c, .ok ())

/-- `compose`. -/
def compose (c : GrammarComposer P) : Except GrammarCompositionError (List Char) := do
  validateBaseGrammar c.baseGrammar
  let extensionRules := c.extensionRegistry.composeGrammar []
  let composed ←
    if !(trim extensionRules).isEmpty then injectExtensionRules c.baseGrammar extensionRules
    else pure c.baseGrammar
  validateComposedGrammar composed
  pure composed

/-- `has_extension_rule`. -/
def hasExtensionRule (c : GrammarComposer P) (ruleName : List Char) : Bool :=
  c.extensionRegistry.canHandle ruleName

/-- Modelled from the spec: `ExtensionRegistry::grammar_extensions()`, which
`extension_count` calls, is not among the sources; it is taken to iterate the
registry's extension-id → `GrammarExtension` mapping. -/
def extensionCount (c : GrammarComposer P) : Nat :=
  c.extensionRegistry.grammarExtensions.values.length

/-- `write_composed_grammar`.  The file system is a state `σ`, and `fs::write`
of a text to the requested path is a step on it that may fail, with the text
of its `io::Error`, after changing the state (a failed write can leave a
truncated file). -/
def writeComposedGrammar {σ : Type} (c : GrammarComposer P)
    (write : σ → List Char → Except (List Char) Unit × σ) (fs : σ) :
    Except GrammarCompositionError Unit × σ :=
  match c.compose with
  | .error error => (.error error, fs)
  | .ok composed =>
      match write fs composed with
      | (.error error, written) =>
          (.error (.ioError ("Failed to write grammar: ".toList ++ error)), written)
      | (.ok (), written) => (.ok (), written)

/-- The grammar `compose` validates last: the base grammar, with the extension
rules injected when there are any. -/
def extendedGrammar (c : GrammarComposer P) : Except GrammarCompositionError (List Char) := do
  validateBaseGrammar c.baseGrammar
  let extensionRules := c.extensionRegistry.composeGrammar []
  if !(trim extensionRules).isEmpty then injectExtensionRules c.baseGrammar extensionRules
  else pure c.baseGrammar

/-! ## Spec lemmas -/

/-- `compose` is `extendedGrammar` followed by `validate_composed_grammar`. -/
theorem compose_eq_bind (c : GrammarComposer P) :
    c.compose = c.extendedGrammar >>= fun composed =>
      validateComposedGrammar composed >>= fun _ => pure composed := by
  unfold compose extendedGrammar
  cases validateBaseGrammar c.baseGrammar with
  | error => rfl
  | ok => dsimp only [bind, Except.bind]; split <;> rfl

theorem compose_eq_ok_iff (c : GrammarComposer P) (composed : List Char) :
    c.compose = .ok composed ↔
      c.extendedGrammar = .ok composed ∧ validateComposedGrammar composed = .ok () := by
  rw [compose_eq_bind, bind_eq_ok]
  constructor
  · rintro ⟨extended, extendedEq, validated⟩
    obtain ⟨⟨⟩, valid, built⟩ := bind_eq_ok.mp validated
    obtain rfl := pure_eq_ok.mp built
    exact ⟨extendedEq, valid⟩
  · rintro ⟨extendedEq, valid⟩
    exact ⟨composed, extendedEq, bind_eq_ok.mpr ⟨(), valid, rfl⟩⟩

/-- A failed composition leaves the file system as it was and is reported
as it is; otherwise the composed text is written, and a failed write is
reported as `IoError` with the write's message. -/
theorem writeComposedGrammar_spec {σ : Type} (c : GrammarComposer P)
    (write : σ → List Char → Except (List Char) Unit × σ) (fs : σ) :
    (∀ error, c.compose = .error error →
      c.writeComposedGrammar write fs = (.error error, fs)) ∧
    ∀ composed, c.compose = .ok composed →
      (c.writeComposedGrammar write fs).2 = (write fs composed).2 ∧
      ((c.writeComposedGrammar write fs).1 = .ok () ↔ (write fs composed).1 = .ok ()) ∧
      ∀ message, (write fs composed).1 = .error message →
        (c.writeComposedGrammar write fs).1 =
          .error (.ioError ("Failed to write grammar: ".toList ++ message)) := by
  refine ⟨fun error failed => by simp [writeComposedGrammar, failed], fun composed built => ?_⟩
  rcases attempt : write fs composed with ⟨_ | _, written⟩ <;>
    simp [writeComposedGrammar, built, attempt]

theorem compose_eq_error_iff (c : GrammarComposer P) (error : GrammarCompositionError) :
    c.compose = .error error ↔ c.extendedGrammar = .error error ∨
      ∃ composed, c.extendedGrammar = .ok composed ∧
        validateComposedGrammar composed = .error error := by
  simp [compose_eq_bind, bind_eq_error, pure, Except.pure]

theorem extendedGrammar_of_nonblank (c : GrammarComposer P)
    (nonBlank : trim (c.extensionRegistry.composeGrammar []) ≠ []) :
    c.extendedGrammar = validateBaseGrammar c.baseGrammar >>= fun _ =>
      injectExtensionRules c.baseGrammar (c.extensionRegistry.composeGrammar []) := by
  simp [extendedGrammar, nonBlank]

theorem injectExtensionRules_eq_ok_iff (baseGrammar extensionRules injected : List Char) :
    injectExtensionRules baseGrammar extensionRules = .ok injected ↔
      ∃ alternativesEnd, findAlternativesEnd baseGrammar = .ok alternativesEnd ∧
        injected = insertAlternatives baseGrammar alternativesEnd
            (scanLines statementRuleName extensionRules) ++
          "\n// Extension Rules\n".toList ++ extensionRules := by
  have header : ∀ inserted : List Char, inserted ++ ['\n'] ++ "// Extension Rules\n".toList =
      inserted ++ "\n// Extension Rules\n".toList := fun _ => by rw [List.append_assoc]; rfl
  simp only [injectExtensionRules, bind_eq_ok, extractExtensionStatements, Except.ok.injEq,
    pure_eq_ok, header, exists_eq_left']
  exact exists_congr fun _ => and_congr_right fun _ => eq_comm

end GrammarComposer

/-- `GrammarComposerBuilder`. -/
structure GrammarComposerBuilder (P : Type) where
  composer : GrammarComposer P

namespace GrammarComposerBuilder

variable {P : Type}

/-- `GrammarComposerBuilder::new`. -/
def new (baseGrammar : List Char) (grammarSeed : RandomState (List Char) GrammarExtension)
    (parserSeed : RandomState (List Char) P) (ruleSeed : RandomState (List Char) (List Char)) :
    GrammarComposerBuilder P :=
  ⟨.new baseGrammar grammarSeed parserSeed ruleSeed⟩

/-- `with_extension`. -/
def withExtension (builder : GrammarComposerBuilder P) (extension : GrammarExtension) :
    GrammarComposerBuilder P :=
  ⟨builder.composer.registerExtension extension⟩

/-- `build`. -/
def build (builder : GrammarComposerBuilder P) : GrammarComposer P :=
  builder.composer

end GrammarComposerBuilder

end RumpsteakAura
