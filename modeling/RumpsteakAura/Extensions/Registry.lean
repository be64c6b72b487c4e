import RumpsteakAura.Collections.HashMap
import Mathlib.Data.List.Sort

/-!
# The extension registry

`ExtensionRegistry` keeps three maps: grammar extensions by extension id,
statement parsers by parser id, and statement-rule names by the id of the
extension that claimed them.  Registration only inserts; nothing is ever
removed, so a rule name keeps the owner it was last given even after that
owner is registered again with another rule set.

`compose_grammar` iterates the grammar map, so its output depends on the
map's seed as well as on its contents; `sort_by_key` is stable, which makes
the seed's order visible among extensions of equal priority.
-/

namespace RumpsteakAura

/-- `trait GrammarExtension`, as the values its four methods return.
`priority` defaults to 100 as in the trait. -/
structure GrammarExtension where
  grammarRules : List Char
  statementRules : List (List Char)
  priority : UInt32 := 100
  extensionId : List Char
deriving DecidableEq

namespace GrammarExtension

/-- The order `sort_by_key(|b| Reverse(b.priority()))` sorts into: `a` may
come before `b` when its priority is at least `b`'s. -/
def ByPriority (a b : GrammarExtension) : Prop :=
  b.priority ≤ a.priority

instance : DecidableRel ByPriority :=
  fun a b => inferInstanceAs (Decidable (b.priority ≤ a.priority))

instance : IsTotal GrammarExtension ByPriority :=
  ⟨fun a b => UInt32.le_total b.priority a.priority⟩

instance : IsTrans GrammarExtension ByPriority :=
  ⟨fun _ _ _ ab bc => UInt32.le_trans bc ab⟩

end GrammarExtension

/-- `slice::sort_by_key(|b| Reverse(b.priority()))`, a stable sort.  Every
stable sort into this order returns the same list, so insertion sort stands
for the library's. -/
def sortByPriority (extensions : List GrammarExtension) : List GrammarExtension :=
  extensions.insertionSort GrammarExtension.ByPriority

theorem sortByPriority_perm (extensions : List GrammarExtension) :
    (sortByPriority extensions).Perm extensions :=
  List.perm_insertionSort _ _

theorem sorted_sortByPriority (extensions : List GrammarExtension) :
    (sortByPriority extensions).Sorted GrammarExtension.ByPriority :=
  List.sorted_insertionSort _ _

/-- `ExtensionRegistry`, over the type `P` of `Box<dyn StatementParser>`
values, which the registry stores and hands back but never inspects. -/
structure ExtensionRegistry (P : Type) where
  grammarExtensions : HashMap (List Char) GrammarExtension
  statementParsers : HashMap (List Char) P
  ruleToParser : HashMap (List Char) (List Char)

namespace ExtensionRegistry

variable {P : Type}

/-- `ExtensionRegistry::new`: three empty maps, each drawing its own seed. -/
def new (grammarSeed : RandomState (List Char) GrammarExtension)
    (parserSeed : RandomState (List Char) P)
    (ruleSeed : RandomState (List Char) (List Char)) : ExtensionRegistry P :=
  ⟨.new grammarSeed, .new parserSeed, .new ruleSeed⟩

/-- Map every rule to the owner `id`, in order. -/
def claimRules (ruleToParser : HashMap (List Char) (List Char)) (rules : List (List Char))
    (id : List Char) : HashMap (List Char) (List Char) :=
  rules.foldl (fun map rule => map.insert rule id) ruleToParser

/-- `register_grammar`: map each statement rule to the extension's id, then
store the extension under that id. -/
def registerGrammar (reg : ExtensionRegistry P) (extension : GrammarExtension) :
    ExtensionRegistry P :=
  let id := extension.extensionId
  { reg with
    ruleToParser := claimRules reg.ruleToParser extension.statementRules id
    grammarExtensions := reg.grammarExtensions.insert id extension }

/-- `register_parser`. -/
def registerParser (reg : ExtensionRegistry P) (parser : P) (parserId : List Char) :
    ExtensionRegistry P :=
  { reg with statementParsers := reg.statementParsers.insert parserId parser }

/-- `compose_grammar`: the base followed, for each extension in priority
order, by a newline and its rule text. -/
def composeGrammar (reg : ExtensionRegistry P) (baseGrammar : List Char) : List Char :=
  (sortByPriority reg.grammarExtensions.values).foldl
    (fun composed extension => composed ++ '\n' :: extension.grammarRules) baseGrammar

/-- `find_parser`. -/
def findParser (reg : ExtensionRegistry P) (ruleName : List Char) : Option P :=
  match reg.ruleToParser.get ruleName with
  | some parserId => reg.statementParsers.get parserId
  | none => none

/-- `can_handle`. -/
def canHandle (reg : ExtensionRegistry P) (ruleName : List Char) : Bool :=
  reg.ruleToParser.containsKey ruleName

/-! ## Registration -/

theorem get_claimRules (ruleToParser : HashMap (List Char) (List Char))
    (rules : List (List Char)) (id rule : List Char) :
    (claimRules ruleToParser rules id).get rule =
      if rule ∈ rules then some id else ruleToParser.get rule := by
  induction rules generalizing ruleToParser with
  | nil => simp [claimRules]
  | cons first rest ih =>
      simp only [claimRules, List.foldl_cons] at ih ⊢
      rw [ih, HashMap.get_insert]
      by_cases later : rule ∈ rest <;> by_cases here : rule = first <;> simp [later, here]

theorem claimRules_of_claimed {ruleToParser : HashMap (List Char) (List Char)}
    {rules : List (List Char)} {id : List Char}
    (claimed : ∀ rule ∈ rules, ruleToParser.get rule = some id) :
    claimRules ruleToParser rules id = ruleToParser := by
  induction rules with
  | nil => rfl
  | cons first rest ih =>
      simp only [claimRules, List.foldl_cons] at ih ⊢
      rw [HashMap.insert_of_get_eq (claimed first (List.mem_cons_self _ _))]
      exact ih fun rule mem => claimed rule (List.mem_cons_of_mem _ mem)

@[simp]
theorem ruleToParser_get_registerGrammar (reg : ExtensionRegistry P)
    (extension : GrammarExtension) (rule : List Char) :
    (reg.registerGrammar extension).ruleToParser.get rule =
      if rule ∈ extension.statementRules then some extension.extensionId
      else reg.ruleToParser.get rule :=
  get_claimRules _ _ _ _

@[simp]
theorem grammarExtensions_registerGrammar (reg : ExtensionRegistry P)
    (extension : GrammarExtension) :
    (reg.registerGrammar extension).grammarExtensions =
      reg.grammarExtensions.insert extension.extensionId extension :=
  rfl

@[simp]
theorem statementParsers_registerGrammar (reg : ExtensionRegistry P)
    (extension : GrammarExtension) :
    (reg.registerGrammar extension).statementParsers = reg.statementParsers :=
  rfl

@[simp]
theorem grammarExtensions_registerParser (reg : ExtensionRegistry P) (parser : P)
    (parserId : List Char) :
    (reg.registerParser parser parserId).grammarExtensions = reg.grammarExtensions :=
  rfl

@[simp]
theorem ruleToParser_registerParser (reg : ExtensionRegistry P) (parser : P)
    (parserId : List Char) :
    (reg.registerParser parser parserId).ruleToParser = reg.ruleToParser :=
  rfl

@[simp]
theorem statementParsers_registerParser (reg : ExtensionRegistry P) (parser : P)
    (parserId : List Char) :
    (reg.registerParser parser parserId).statementParsers =
      reg.statementParsers.insert parserId parser :=
  rfl

/-- A registration the registry already holds, the extension under its id
and each of its rules owned by that id, changes nothing. -/
theorem registerGrammar_of_registered {reg : ExtensionRegistry P} {extension : GrammarExtension}
    (stored : reg.grammarExtensions.get extension.extensionId = some extension)
    (claimed : ∀ rule ∈ extension.statementRules,
      reg.ruleToParser.get rule = some extension.extensionId) :
    reg.registerGrammar extension = reg := by
  simp only [registerGrammar, claimRules_of_claimed claimed, HashMap.insert_of_get_eq stored]

/-- Registering an extension a second time has no effect. -/
theorem registerGrammar_registerGrammar (reg : ExtensionRegistry P)
    (extension : GrammarExtension) :
    (reg.registerGrammar extension).registerGrammar extension = reg.registerGrammar extension :=
  registerGrammar_of_registered (by simp) fun rule mem => by simp [mem]

/-! ## Composition -/

/-- The pushes of `compose_grammar`'s loop append one newline-prefixed
fragment per extension. -/
theorem composeGrammar_eq (reg : ExtensionRegistry P) (baseGrammar : List Char) :
    reg.composeGrammar baseGrammar =
      baseGrammar ++ (sortByPriority reg.grammarExtensions.values).flatMap
        fun extension => '\n' :: extension.grammarRules := by
  rw [composeGrammar]
  generalize sortByPriority reg.grammarExtensions.values = extensions
  induction extensions generalizing baseGrammar with
  | nil => simp
  | cons extension rest ih => simp [ih]

end ExtensionRegistry

/-! ## Runs -/

/-- One call on a registry. -/
inductive Registration (P : Type)
  | grammar (extension : GrammarExtension)
  | statementParser (parser : P) (parserId : List Char)

namespace Registration

variable {P : Type}

/-- The registry after one call. -/
def apply (reg : ExtensionRegistry P) : Registration P → ExtensionRegistry P
  | grammar extension => reg.registerGrammar extension
  | statementParser p parserId => reg.registerParser p parserId

/-- The grammar extensions a sequence of calls registers, in call order. -/
def grammars : List (Registration P) → List GrammarExtension :=
  List.filterMap fun
    | grammar extension => some extension
    | statementParser _ _ => none

@[simp]
theorem grammars_nil : grammars ([] : List (Registration P)) = [] :=
  rfl

/-- The parser ids a sequence of calls registers under, in call order. -/
def parserIds : List (Registration P) → List (List Char) :=
  List.filterMap fun
    | grammar _ => none
    | statementParser _ parserId => some parserId

@[simp]
theorem grammars_append (first second : List (Registration P)) :
    grammars (first ++ second) = grammars first ++ grammars second :=
  List.filterMap_append _ _ _

@[simp]
theorem grammars_grammar (extension : GrammarExtension) :
    grammars [(grammar extension : Registration P)] = [extension] :=
  rfl

@[simp]
theorem grammars_statementParser (p : P) (parserId : List Char) :
    grammars [statementParser p parserId] = [] :=
  rfl

end Registration

/-- The registry after a sequence of calls. -/
def ExtensionRegistry.run {P : Type} (reg : ExtensionRegistry P)
    (calls : List (Registration P)) : ExtensionRegistry P :=
  calls.foldl Registration.apply reg

@[simp]
theorem ExtensionRegistry.run_nil {P : Type} (reg : ExtensionRegistry P) : reg.run [] = reg :=
  rfl

@[simp]
theorem ExtensionRegistry.run_append_singleton {P : Type} (reg : ExtensionRegistry P)
    (calls : List (Registration P)) (call : Registration P) :
    reg.run (calls ++ [call]) = Registration.apply (reg.run calls) call := by
  simp [ExtensionRegistry.run, Registration.apply]

end RumpsteakAura
