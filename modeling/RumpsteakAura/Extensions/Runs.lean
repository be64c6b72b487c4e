import RumpsteakAura.Extensions.Registry
import Mathlib.Data.List.Dedup

/-!
# Registry state after a run of registrations

Every registry operation inserts into a map and nothing removes from one, so
the state after any sequence of calls is determined by the calls alone: each
rule name is owned by the last registered extension that listed it, each
parser id holds the last parser registered under it, and the grammar map holds
the last extension registered under each id.

The first two facts say that rule ownership is historical, not current: an
extension registered again under its id with fewer rules leaves its old rule
names behind, still mapped to its id.
-/

namespace RumpsteakAura

namespace ExtensionRegistry

variable {P : Type}

/-- The id of the last extension in `extensions` that lists `rule` among its
statement rules. -/
def lastOwner (extensions : List GrammarExtension) (rule : List Char) : Option (List Char) :=
  (extensions.reverse.find? fun extension => rule ∈ extension.statementRules).map
    GrammarExtension.extensionId

/-- The parser last registered under `parserId` by `calls`. -/
def lastParser (calls : List (Registration P)) (parserId : List Char) : Option P :=
  calls.reverse.findSome? fun
    | .statementParser parser id => if id = parserId then some parser else none
    | .grammar _ => none

/-- The extensions no later registration replaces: the last one registered
under each id, in registration order. -/
def latestById : List GrammarExtension → List GrammarExtension
  | [] => []
  | extension :: later =>
      if later.any (·.extensionId = extension.extensionId) then latestById later
      else extension :: latestById later

@[simp]
theorem lastOwner_nil (rule : List Char) : lastOwner [] rule = none :=
  rfl

@[simp]
theorem lastOwner_singleton (extension : GrammarExtension) (rule : List Char) :
    lastOwner [extension] rule =
      if rule ∈ extension.statementRules then some extension.extensionId else none := by
  by_cases listed : rule ∈ extension.statementRules <;> simp [lastOwner, listed]

theorem lastOwner_append_singleton (extensions : List GrammarExtension)
    (extension : GrammarExtension) (rule : List Char) :
    lastOwner (extensions ++ [extension]) rule =
      if rule ∈ extension.statementRules then some extension.extensionId
      else lastOwner extensions rule := by
  by_cases listed : rule ∈ extension.statementRules <;> simp [lastOwner, listed]

theorem lastOwner_isSome_iff (extensions : List GrammarExtension) (rule : List Char) :
    (lastOwner extensions rule).isSome ↔
      ∃ extension ∈ extensions, rule ∈ extension.statementRules := by
  simp [lastOwner, List.find?_isSome]

theorem latestById_append_singleton (extensions : List GrammarExtension)
    (extension : GrammarExtension) :
    latestById (extensions ++ [extension]) =
      (latestById extensions).filter (·.extensionId ≠ extension.extensionId) ++ [extension] := by
  induction extensions with
  | nil => simp [latestById]
  | cons first later ih =>
      by_cases replaced : ∃ other ∈ later, other.extensionId = first.extensionId
      · simp [latestById, replaced, ih]
      · by_cases same : extension.extensionId = first.extensionId
        · simp [latestById, replaced, ih, same]
        · simp [latestById, replaced, ih, same, Ne.symm same]

theorem latestById_sublist : ∀ extensions : List GrammarExtension,
    (latestById extensions).Sublist extensions
  | [] => .slnil
  | first :: later => by
      unfold latestById
      split
      · exact (latestById_sublist later).cons first
      · exact (latestById_sublist later).cons₂ first

/-- One extension per id survives. -/
theorem latestById_ids_nodup (extensions : List GrammarExtension) :
    ((latestById extensions).map GrammarExtension.extensionId).Nodup := by
  induction extensions with
  | nil => simp [latestById]
  | cons first later ih =>
      unfold latestById
      split
      · exact ih
      · next fresh =>
          refine List.nodup_cons.mpr ⟨fun mem => fresh ?_, ih⟩
          obtain ⟨other, otherMem, sameId⟩ := List.mem_map.mp mem
          simpa using ⟨other, (latestById_sublist later).subset otherMem, sameId⟩

theorem mem_ids_latestById {extensions : List GrammarExtension} {id : List Char} :
    id ∈ (latestById extensions).map GrammarExtension.extensionId ↔
      id ∈ extensions.map GrammarExtension.extensionId := by
  induction extensions with
  | nil => simp [latestById]
  | cons first later ih =>
      unfold latestById
      split
      · next replaced =>
          obtain ⟨other, otherMem, sameId⟩ : ∃ other ∈ later, other.extensionId = first.extensionId :=
            by simpa using replaced
          rw [ih, List.map_cons, List.mem_cons, or_iff_right_of_imp]
          rintro rfl
          exact List.mem_map.mpr ⟨other, otherMem, sameId⟩
      · simp [ih]

/-- The extensions that survive are as many as the distinct ids registered. -/
theorem length_latestById (extensions : List GrammarExtension) :
    (latestById extensions).length =
      (extensions.map GrammarExtension.extensionId).dedup.length := by
  rw [← List.length_map (latestById extensions) GrammarExtension.extensionId]
  refine ((List.perm_ext_iff_of_nodup (latestById_ids_nodup _) (List.nodup_dedup _)).mpr
    fun id => ?_).length_eq
  rw [List.mem_dedup, mem_ids_latestById]

/-- Every entry of the grammar map sits under its extension's id. -/
def KeyedById (extensions : HashMap (List Char) GrammarExtension) : Prop :=
  ∀ entry ∈ extensions.entries, entry.1 = entry.2.extensionId

theorem keyedById_insert {extensions : HashMap (List Char) GrammarExtension}
    (keyed : KeyedById extensions) (extension : GrammarExtension) :
    KeyedById (extensions.insert extension.extensionId extension) := by
  intro entry mem
  rcases mem_insertEntries mem with old | rfl
  · exact keyed entry old
  · rfl

/-- Registering under an extension's id drops the extension it replaces and
adds the new one. -/
theorem entries_insert_perm {extensions : HashMap (List Char) GrammarExtension}
    (keyed : KeyedById extensions) (extension : GrammarExtension) :
    ((extensions.insert extension.extensionId extension).entries.map Prod.snd).Perm
      ((extensions.entries.map Prod.snd).filter (·.extensionId ≠ extension.extensionId) ++
        [extension]) := by
  have removed : (extensions.entries.filter (·.1 ≠ extension.extensionId)).map Prod.snd =
      (extensions.entries.map Prod.snd).filter (·.extensionId ≠ extension.extensionId) := by
    rw [List.filter_map]
    exact congrArg _ (List.filter_congr fun entry mem => by simp [keyed entry mem])
  have moved := (insertEntries_perm extension.extensionId extension extensions.keys_nodup).map
    Prod.snd
  rwa [List.map_append, removed] at moved

/-! ## Step lemmas -/

theorem ruleToParser_get_apply (reg : ExtensionRegistry P) (call : Registration P)
    (rule : List Char) :
    (Registration.apply reg call).ruleToParser.get rule =
      (lastOwner (Registration.grammars [call]) rule).or (reg.ruleToParser.get rule) := by
  cases call with
  | grammar extension =>
      by_cases listed : rule ∈ extension.statementRules <;>
        simp [Registration.apply, lastOwner, listed]
  | statementParser parser parserId => simp [Registration.apply]

theorem statementParsers_get_apply (reg : ExtensionRegistry P) (call : Registration P)
    (parserId : List Char) :
    (Registration.apply reg call).statementParsers.get parserId =
      (lastParser [call] parserId).or (reg.statementParsers.get parserId) := by
  cases call with
  | grammar extension => simp [Registration.apply, lastParser]
  | statementParser parser id =>
      by_cases same : parserId = id
      · simp [Registration.apply, lastParser, same]
      · simp [Registration.apply, lastParser, same, Ne.symm same]

/-! ## Run lemmas -/

theorem ruleToParser_get_run (reg : ExtensionRegistry P) (calls : List (Registration P))
    (rule : List Char) :
    (reg.run calls).ruleToParser.get rule =
      (lastOwner (Registration.grammars calls) rule).or (reg.ruleToParser.get rule) := by
  induction calls using List.reverseRecOn with
  | nil => simp
  | append_singleton calls call ih =>
      rw [run_append_singleton, ruleToParser_get_apply, ih]
      cases call with
      | grammar extension =>
          by_cases listed : rule ∈ extension.statementRules <;>
            simp [lastOwner_append_singleton, listed]
      | statementParser parser parserId => simp

theorem statementParsers_get_run (reg : ExtensionRegistry P) (calls : List (Registration P))
    (parserId : List Char) :
    (reg.run calls).statementParsers.get parserId =
      (lastParser calls parserId).or (reg.statementParsers.get parserId) := by
  induction calls using List.reverseRecOn with
  | nil => simp [lastParser]
  | append_singleton calls call ih =>
      rw [run_append_singleton, statementParsers_get_apply, ih, ← Option.or_assoc]
      simp only [lastParser, List.reverse_append, List.reverse_singleton, List.findSome?_append]

/-- No call removes a rule mapping: a handled rule stays handled. -/
theorem canHandle_apply {reg : ExtensionRegistry P} {rule : List Char}
    (handled : reg.canHandle rule) (call : Registration P) :
    (Registration.apply reg call).canHandle rule := by
  simp only [canHandle, HashMap.containsKey, ruleToParser_get_apply] at handled ⊢
  cases lastOwner (Registration.grammars [call]) rule <;> simp [handled]

/-- Once a rule is handled, it is handled after any further calls. -/
theorem canHandle_run {reg : ExtensionRegistry P} {rule : List Char}
    (handled : reg.canHandle rule) (calls : List (Registration P)) :
    (reg.run calls).canHandle rule := by
  induction calls using List.reverseRecOn with
  | nil => rwa [run_nil]
  | append_singleton calls call ih =>
      rw [run_append_singleton]
      exact canHandle_apply ih call

theorem canHandle_run_after_reregistration :
    let first : GrammarExtension :=
      { grammarRules := [], statementRules := ["a_stmt".toList], extensionId := "x".toList }
    let reg := (new .insertionOrder .insertionOrder .insertionOrder).run
      [(.grammar first : Registration Unit)]
    reg.canHandle "a_stmt".toList ∧
      (reg.run [.grammar { first with statementRules := ["b_stmt".toList] }]).canHandle
        "a_stmt".toList :=
  ⟨by decide, canHandle_run (by decide) _⟩

section Fresh

variable (grammarSeed : RandomState (List Char) GrammarExtension)
  (parserSeed : RandomState (List Char) P) (ruleSeed : RandomState (List Char) (List Char))

theorem ruleToParser_get_new_run (calls : List (Registration P)) (rule : List Char) :
    ((new grammarSeed parserSeed ruleSeed).run calls).ruleToParser.get rule =
      lastOwner (Registration.grammars calls) rule := by
  simp [ruleToParser_get_run, new, Option.or_none]

theorem statementParsers_get_new_run (calls : List (Registration P)) (parserId : List Char) :
    ((new grammarSeed parserSeed ruleSeed).run calls).statementParsers.get parserId =
      lastParser calls parserId := by
  simp [statementParsers_get_run, new, Option.or_none]

/-- The grammar map of a fresh registry after any run holds exactly the last
extension registered under each id. -/
theorem grammarExtensions_run (calls : List (Registration P)) :
    let extensions := ((new grammarSeed parserSeed ruleSeed).run calls).grammarExtensions
    KeyedById extensions ∧
      (extensions.entries.map Prod.snd).Perm (latestById (Registration.grammars calls)) := by
  induction calls using List.reverseRecOn with
  | nil =>
      exact ⟨fun _ mem => absurd mem (List.not_mem_nil _), by simp [new, HashMap.new, latestById]⟩
  | append_singleton calls call ih =>
      obtain ⟨keyed, contents⟩ := ih
      cases call with
      | grammar extension =>
          simp only [run_append_singleton, Registration.apply, grammarExtensions_registerGrammar,
            Registration.grammars_append, Registration.grammars_grammar,
            latestById_append_singleton]
          exact ⟨keyedById_insert keyed extension,
            (entries_insert_perm keyed extension).trans
              ((contents.filter _).append_right [extension])⟩
      | statementParser parser parserId =>
          simpa [Registration.apply] using ⟨keyed, contents⟩

theorem values_run_perm (calls : List (Registration P)) :
    ((new grammarSeed parserSeed ruleSeed).run calls).grammarExtensions.values.Perm
      (latestById (Registration.grammars calls)) :=
  (HashMap.values_perm _).trans (grammarExtensions_run grammarSeed parserSeed ruleSeed calls).2

/-! ## Rule ownership -/

/-- After any run from a fresh registry, a rule name is handled when some
extension registered at any point listed it; it is mapped to the id of the
last such extension, and `find_parser` returns the parser last registered
under that id.  Rules listed by the extensions registered now are handled,
but the converse fails: ownership is never withdrawn. -/
theorem ruleOwnership_run (calls : List (Registration P)) (rule : List Char) :
    let reg := (new grammarSeed parserSeed ruleSeed).run calls
    (reg.canHandle rule ↔
        ∃ extension ∈ Registration.grammars calls, rule ∈ extension.statementRules) ∧
      reg.ruleToParser.get rule = lastOwner (Registration.grammars calls) rule ∧
      reg.findParser rule = (lastOwner (Registration.grammars calls) rule).bind (lastParser calls) ∧
      ∀ extension ∈ reg.grammarExtensions.values,
        rule ∈ extension.statementRules → reg.canHandle rule := by
  intro reg
  have owner : reg.ruleToParser.get rule = lastOwner (Registration.grammars calls) rule := by
    simp [reg, ruleToParser_get_run, new, Option.or_none]
  have parsers : ∀ parserId, reg.statementParsers.get parserId = lastParser calls parserId := by
    simp [reg, statementParsers_get_run, new, Option.or_none]
  have handled : reg.canHandle rule ↔
      ∃ extension ∈ Registration.grammars calls, rule ∈ extension.statementRules := by
    rw [canHandle, HashMap.containsKey, owner, lastOwner_isSome_iff]
  refine ⟨handled, owner, ?_, fun extension current listed => handled.mpr ?_⟩
  · rw [findParser, owner]
    cases lastOwner (Registration.grammars calls) rule <;> simp [parsers]
  · have registered := (latestById_sublist _).subset
      ((values_run_perm grammarSeed parserSeed ruleSeed calls).subset current)
    exact ⟨extension, registered, listed⟩

end Fresh

/-- Rule ownership does not follow the extensions registered now: an
extension registered again under its id with another rule set leaves its old
rule handled, owned by an extension that no longer declares it. -/
theorem ruleOwnership_not_current :
    ¬ ∀ (P : Type) (grammarSeed : RandomState (List Char) GrammarExtension)
        (parserSeed : RandomState (List Char) P) (ruleSeed : RandomState (List Char) (List Char))
        (calls : List (Registration P)) (rule : List Char),
      let reg := (new grammarSeed parserSeed ruleSeed).run calls
      (reg.canHandle rule ↔
          ∃ extension ∈ reg.grammarExtensions.values, rule ∈ extension.statementRules) ∧
        (∀ id, reg.ruleToParser.get rule = some id →
          ∃ extension ∈ reg.grammarExtensions.values,
            extension.extensionId = id ∧ rule ∈ extension.statementRules) ∧
        ∀ parser, reg.findParser rule = some parser →
          ∃ extension ∈ reg.grammarExtensions.values, rule ∈ extension.statementRules ∧
            reg.statementParsers.get extension.extensionId = some parser := by
  intro current
  have := (current Unit .insertionOrder .insertionOrder .insertionOrder
    [.grammar { grammarRules := [], statementRules := ["a_stmt".toList], extensionId := "x".toList },
     .grammar { grammarRules := [], statementRules := ["b_stmt".toList], extensionId := "x".toList }]
    "a_stmt".toList).1
  revert this
  decide

end ExtensionRegistry

end RumpsteakAura
