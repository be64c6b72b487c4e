import RumpsteakAura.Compiler.Seeds

/-!
# Registration order

Every lookup of the registry reads the last registration that matches: the
last extension listing a rule, the last parser under an id.  When at most one
registration matches, the last match is the only one, so the order of the
calls does not matter: registrations without conflicts can come in any order,
under any seeds, and the registry answers the same.
-/

namespace RumpsteakAura

/-! ## Last matches under reordering -/

theorem eq_of_perm_of_length_le_one {α : Type} {l l' : List α} (perm : l.Perm l')
    (short : l.length ≤ 1) : l = l' := by
  match l, short with
  | [], _ => exact perm.nil_eq
  | [_], _ => exact (List.perm_singleton.mp perm.symm).symm

theorem find?_reverse_perm {α : Type} {p : α → Bool} {l l' : List α} (perm : l.Perm l')
    (unique : (l.filter p).length ≤ 1) : l.reverse.find? p = l'.reverse.find? p := by
  rw [← List.filter_head?, ← List.filter_head?, List.filter_reverse, List.filter_reverse,
    eq_of_perm_of_length_le_one (perm.filter p) unique]

theorem findSome?_reverse_perm {α β : Type} {f : α → Option β} {l l' : List α}
    (perm : l.Perm l') (unique : (l.filterMap f).length ≤ 1) :
    l.reverse.findSome? f = l'.reverse.findSome? f := by
  rw [← List.filterMap_head?, ← List.filterMap_head?, List.filterMap_reverse,
    List.filterMap_reverse, eq_of_perm_of_length_le_one (perm.filterMap f) unique]

/-- When no two elements of a list both pass `p`, at most one does. -/
theorem length_filter_le_one_of_pairwise {α : Type} {p : α → Bool} {l : List α}
    (exclusive : l.Pairwise fun a b => ¬ (p a ∧ p b)) : (l.filter p).length ≤ 1 := by
  induction l with
  | nil => simp
  | cons first rest ih =>
      rw [List.pairwise_cons] at exclusive
      by_cases here : p first
      · have others : rest.filter p = [] :=
          List.filter_eq_nil_iff.mpr fun other mem passes =>
            exclusive.1 other mem ⟨here, passes⟩
        simp [List.filter_cons, here, others]
      · simpa [List.filter_cons, here] using ih exclusive.2

/-- With distinct keys, at most one element has a given key. -/
theorem length_filter_key_le_one {α κ : Type} [DecidableEq κ] (key : α → κ) {l : List α}
    (distinct : (l.map key).Nodup) (k : κ) : (l.filter fun x => key x = k).length ≤ 1 :=
  length_filter_le_one_of_pairwise <| (List.pairwise_map.mp distinct).imp
    fun differ both => differ (by simp only [decide_eq_true_eq] at both; rw [both.1, both.2])

namespace Registration

variable {P : Type}

/-- The parser a call registers under `parserId`, if any. -/
def parserMatch (parserId : List Char) : Registration P → Option P
  | grammar _ => none
  | statementParser parser id => if id = parserId then some parser else none

theorem length_filterMap_parserMatch (calls : List (Registration P)) (parserId : List Char) :
    (calls.filterMap (parserMatch parserId)).length =
      ((parserIds calls).filter fun id => id = parserId).length := by
  induction calls with
  | nil => rfl
  | cons call rest ih =>
      cases call with
      | grammar extension => simpa [parserMatch, parserIds] using ih
      | statementParser parser id =>
          by_cases same : id = parserId <;> simp_all [parserMatch, parserIds]

end Registration

namespace ExtensionRegistry

variable {P : Type}

/-- No two extensions list the same statement rule. -/
def RulesDisjoint (extensions : List GrammarExtension) : Prop :=
  extensions.Pairwise fun a b => ∀ rule ∈ a.statementRules, rule ∉ b.statementRules

instance : DecidablePred RulesDisjoint :=
  fun extensions => inferInstanceAs (Decidable (extensions.Pairwise _))

theorem length_filter_listing_le_one {extensions : List GrammarExtension}
    (disjoint : RulesDisjoint extensions) (rule : List Char) :
    (extensions.filter fun extension => rule ∈ extension.statementRules).length ≤ 1 :=
  length_filter_le_one_of_pairwise <| disjoint.imp
    fun apart both => apart rule (of_decide_eq_true both.1) (of_decide_eq_true both.2)

theorem lastOwner_perm {extensions extensions' : List GrammarExtension}
    (perm : extensions.Perm extensions') (disjoint : RulesDisjoint extensions)
    (rule : List Char) : lastOwner extensions rule = lastOwner extensions' rule := by
  unfold lastOwner
  rw [find?_reverse_perm perm (length_filter_listing_le_one disjoint rule)]

theorem lastParser_eq (calls : List (Registration P)) (parserId : List Char) :
    lastParser calls parserId = calls.reverse.findSome? (Registration.parserMatch parserId) := by
  unfold lastParser Registration.parserMatch
  congr
  funext call
  cases call <;> rfl

theorem lastParser_perm {calls calls' : List (Registration P)} (perm : calls.Perm calls')
    (distinct : (Registration.parserIds calls).Nodup) (parserId : List Char) :
    lastParser calls parserId = lastParser calls' parserId := by
  rw [lastParser_eq, lastParser_eq, findSome?_reverse_perm perm]
  rw [Registration.length_filterMap_parserMatch]
  exact length_filter_key_le_one id (by simpa using distinct) parserId

theorem latestById_eq_self {extensions : List GrammarExtension}
    (distinct : (extensions.map GrammarExtension.extensionId).Nodup) :
    latestById extensions = extensions := by
  induction extensions with
  | nil => rfl
  | cons first rest ih =>
      rw [List.map_cons, List.nodup_cons] at distinct
      have fresh : ¬ rest.any (·.extensionId = first.extensionId) := by
        simp only [List.any_eq_true, decide_eq_true_eq, not_exists, not_and]
        exact fun other mem same => distinct.1 (same ▸ List.mem_map_of_mem _ mem)
      rw [latestById, if_neg fresh, ih distinct.2]

/-! ## Reordered runs -/

section Reordering

variable (grammarSeed grammarSeed' : RandomState (List Char) GrammarExtension)
  (parserSeed parserSeed' : RandomState (List Char) P)
  (ruleSeed ruleSeed' : RandomState (List Char) (List Char))

/-- Registrations without conflicts can be made in any order.  When no two
extensions share an id or a statement rule and no two parsers share an id,
every reordering of the calls, under any seeds, gives a registry that handles
and resolves every rule the same way, and whose `compose_grammar` emits the
same text whenever extensions of equal priority have equal rules. -/
theorem run_reordered_agrees (calls calls' : List (Registration P))
    (reordered : calls.Perm calls')
    (idsDistinct : ((Registration.grammars calls).map GrammarExtension.extensionId).Nodup)
    (rulesDisjoint : RulesDisjoint (Registration.grammars calls))
    (parserIdsDistinct : (Registration.parserIds calls).Nodup) :
    let reg := (new grammarSeed parserSeed ruleSeed).run calls
    let reg' := (new grammarSeed' parserSeed' ruleSeed').run calls'
    (∀ rule, reg.canHandle rule = reg'.canHandle rule ∧
      reg.findParser rule = reg'.findParser rule) ∧
    ((∀ a ∈ Registration.grammars calls, ∀ b ∈ Registration.grammars calls,
        a.priority = b.priority → a.grammarRules = b.grammarRules) →
      ∀ baseGrammar, reg.composeGrammar baseGrammar = reg'.composeGrammar baseGrammar) := by
  intro reg reg'
  have grammarsPerm : (Registration.grammars calls).Perm (Registration.grammars calls') :=
    reordered.filterMap _
  have owners : ∀ rule, reg.ruleToParser.get rule = reg'.ruleToParser.get rule := fun rule => by
    rw [ruleToParser_get_new_run, ruleToParser_get_new_run,
      lastOwner_perm grammarsPerm rulesDisjoint]
  have parsers : ∀ parserId, reg.statementParsers.get parserId =
      reg'.statementParsers.get parserId := fun parserId => by
    rw [statementParsers_get_new_run, statementParsers_get_new_run,
      lastParser_perm reordered parserIdsDistinct]
  refine ⟨fun rule => ⟨by rw [canHandle, canHandle, HashMap.containsKey, HashMap.containsKey,
    owners], ?_⟩, fun tiesAgree baseGrammar => ?_⟩
  · rw [findParser, findParser, owners]
    cases reg'.ruleToParser.get rule <;> simp [parsers]
  · have current := values_run_perm grammarSeed parserSeed ruleSeed calls
    have current' := values_run_perm grammarSeed' parserSeed' ruleSeed' calls'
    rw [latestById_eq_self idsDistinct] at current
    rw [latestById_eq_self ((grammarsPerm.map _).nodup_iff.mp idsDistinct)] at current'
    rw [composeGrammar_eq, composeGrammar_eq,
      flatMap_sortByPriority_eq ((current.trans grammarsPerm).trans current'.symm)]
    exact fun a aMem b bMem => tiesAgree a (current.subset aMem) b (current.subset bMem)

end Reordering

theorem run_reordered_agrees_choice_timeout :
    let calls : List (Registration Unit) :=
      [.grammar GrammarComposer.choiceExtension,
        .grammar { GrammarComposer.timeoutExtension with priority := 200 },
        .statementParser () "choice".toList]
    let reg := (new .insertionOrder .insertionOrder .insertionOrder).run calls
    let reg' := (new .reversed .reversed .reversed).run calls.reverse
    calls.Perm calls.reverse ∧
      ((Registration.grammars calls).map GrammarExtension.extensionId).Nodup ∧
      RulesDisjoint (Registration.grammars calls) ∧ (Registration.parserIds calls).Nodup ∧
      (∀ rule, reg.canHandle rule = reg'.canHandle rule ∧
        reg.findParser rule = reg'.findParser rule) ∧
      ((∀ a ∈ Registration.grammars calls, ∀ b ∈ Registration.grammars calls,
          a.priority = b.priority → a.grammarRules = b.grammarRules) →
        ∀ baseGrammar, reg.composeGrammar baseGrammar = reg'.composeGrammar baseGrammar) :=
  ⟨(List.reverse_perm _).symm, by decide, by decide, by decide,
    run_reordered_agrees .insertionOrder .reversed .insertionOrder .reversed .insertionOrder
      .reversed _ _ (List.reverse_perm _).symm (by decide) (by decide) (by decide)⟩

end ExtensionRegistry

end RumpsteakAura
