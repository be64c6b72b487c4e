import RumpsteakAura.Compiler.Composition

/-!
# Composition under different seeds

`compose_grammar` collects the grammar map's values, which come in the order
of the map's seed, and sorts them stably by priority.  Extensions of
different priority are therefore ordered by priority alone, but extensions of
equal priority keep the order in which the map yields them, which the
standard library leaves to the seed.  Two registries built by the same calls
compose the same text exactly when this leftover freedom cannot show: when
extensions of equal priority carry the same rules.
-/

namespace RumpsteakAura

open Str

/-- Two lists of priority-text pairs, permutations of each other and both
sorted into non-increasing priority, are equal when equal priorities carry
equal text. -/
theorem eq_of_perm_of_sorted_priority {β : Type} {keys₁ keys₂ : List (UInt32 × β)}
    (perm : keys₁.Perm keys₂) (sorted₁ : keys₁.Sorted fun x y => y.1 ≤ x.1)
    (sorted₂ : keys₂.Sorted fun x y => y.1 ≤ x.1)
    (determined : ∀ x ∈ keys₁, ∀ y ∈ keys₁, x.1 = y.1 → x = y) :
    keys₁ = keys₂ := by
  induction keys₁ generalizing keys₂ with
  | nil => exact perm.nil_eq
  | cons x rest ih =>
      cases keys₂ with
      | nil => exact absurd perm.length_eq (by simp)
      | cons y others =>
          have yMem : y ∈ x :: rest := perm.symm.subset (List.mem_cons_self _ _)
          have xMem : x ∈ y :: others := perm.subset (List.mem_cons_self _ _)
          have yLe : y.1 ≤ x.1 := by
            rcases List.mem_cons.mp yMem with rfl | later
            · exact UInt32.le_refl _
            · exact List.rel_of_sorted_cons sorted₁ y later
          have xLe : x.1 ≤ y.1 := by
            rcases List.mem_cons.mp xMem with rfl | later
            · exact UInt32.le_refl _
            · exact List.rel_of_sorted_cons sorted₂ x later
          obtain rfl := determined x (List.mem_cons_self _ _) y yMem
            (UInt32.eq_of_toBitVec_eq (BitVec.le_antisymm xLe yLe))
          rw [ih perm.cons_inv sorted₁.of_cons sorted₂.of_cons fun a aMem b bMem =>
            determined a (List.mem_cons_of_mem _ aMem) b (List.mem_cons_of_mem _ bMem)]

/-- The rule text of two priority sorts of the same extensions agrees when
extensions of equal priority have equal rules. -/
theorem flatMap_sortByPriority_eq {extensions₁ extensions₂ : List GrammarExtension}
    (perm : extensions₁.Perm extensions₂)
    (tiesAgree : ∀ a ∈ extensions₁, ∀ b ∈ extensions₁,
      a.priority = b.priority → a.grammarRules = b.grammarRules) :
    (sortByPriority extensions₁).flatMap (fun e => '\n' :: e.grammarRules) =
      (sortByPriority extensions₂).flatMap (fun e => '\n' :: e.grammarRules) := by
  let key := fun e : GrammarExtension => (e.priority, e.grammarRules)
  have sortedKeys : ∀ extensions, ((sortByPriority extensions).map key).Sorted
      fun x y => y.1 ≤ x.1 :=
    fun extensions => (sorted_sortByPriority extensions).map key fun _ _ le => le
  have keysEq :
      (sortByPriority extensions₁).map key = (sortByPriority extensions₂).map key := by
    refine eq_of_perm_of_sorted_priority
      ((((sortByPriority_perm _).trans perm).trans (sortByPriority_perm _).symm).map key)
      (sortedKeys _) (sortedKeys _) ?_
    simp only [List.mem_map, (sortByPriority_perm _).mem_iff]
    rintro _ ⟨a, aMem, rfl⟩ _ ⟨b, bMem, rfl⟩ samePriority
    simp only [key, Prod.mk.injEq] at samePriority ⊢
    exact ⟨samePriority, tiesAgree a aMem b bMem samePriority⟩
  have texts := congrArg (List.flatMap · fun x : UInt32 × List Char => '\n' :: x.2) keysEq
  simpa only [List.flatMap_map] using texts

namespace ExtensionRegistry

variable {P : Type}

/-! ## Ties among equal priorities -/

/-- Extensions of one priority keep, through the sort, the order in which
they came. -/
theorem filter_priority_sortByPriority (extensions : List GrammarExtension) (priority : UInt32) :
    (sortByPriority extensions).filter (·.priority = priority) =
      extensions.filter (·.priority = priority) := by
  have classSorted : (extensions.filter (·.priority = priority)).Pairwise
      GrammarExtension.ByPriority :=
    List.pairwise_of_forall_mem_list fun a aMem b bMem => by
      simp only [List.mem_filter, decide_eq_true_eq] at aMem bMem
      rw [GrammarExtension.ByPriority, aMem.2, bMem.2]
      exact UInt32.le_refl _
  have kept := (List.sublist_insertionSort classSorted (List.filter_sublist extensions)).filter
    (·.priority = priority)
  rw [List.filter_filter, List.filter_congr fun _ _ => Bool.and_self _] at kept
  exact (kept.eq_of_length ((sortByPriority_perm extensions).filter _).length_eq.symm).symm

/-- `compose_grammar` emits the grammar map's values by non-increasing
priority, and the extensions of each priority in the order the map yields
them. -/
theorem composeGrammar_emission_order (reg : ExtensionRegistry P) (baseGrammar : List Char) :
    ∃ order : List GrammarExtension,
      reg.composeGrammar baseGrammar =
        baseGrammar ++ order.flatMap (fun e => '\n' :: e.grammarRules) ∧
      order.Sorted GrammarExtension.ByPriority ∧
      ∀ priority, order.filter (·.priority = priority) =
        reg.grammarExtensions.values.filter (·.priority = priority) :=
  ⟨_, composeGrammar_eq reg baseGrammar, sorted_sortByPriority _,
    filter_priority_sortByPriority _⟩

/-! ## Runs under different seeds -/

/-- After any run of registrations under any seeds, `compose_grammar` emits
each extension registered last under its id once, by non-increasing
priority, and the extensions of each priority in the order the grammar map
yields them.  Registries built by the same calls under other seeds compose
the same text, and `compose` agrees on them, when those extensions of equal
priority have the same rules, in particular when priorities are distinct. -/
theorem composeGrammar_order_seed_independent
    (grammarSeed grammarSeed' : RandomState (List Char) GrammarExtension)
    (parserSeed parserSeed' : RandomState (List Char) P)
    (ruleSeed ruleSeed' : RandomState (List Char) (List Char))
    (calls : List (Registration P)) (base grammarBase : List Char) :
    let reg := (new grammarSeed parserSeed ruleSeed).run calls
    let reg' := (new grammarSeed' parserSeed' ruleSeed').run calls
    (∃ order : List GrammarExtension,
      order.Perm (latestById (Registration.grammars calls)) ∧
      order.Sorted GrammarExtension.ByPriority ∧
      (∀ priority, order.filter (·.priority = priority) =
        reg.grammarExtensions.values.filter (·.priority = priority)) ∧
      reg.composeGrammar base = base ++ order.flatMap fun e => '\n' :: e.grammarRules) ∧
    ((∀ a ∈ latestById (Registration.grammars calls),
        ∀ b ∈ latestById (Registration.grammars calls),
          a.priority = b.priority → a.grammarRules = b.grammarRules) →
      reg.composeGrammar base = reg'.composeGrammar base ∧
        (GrammarComposer.mk grammarBase reg).compose =
          (GrammarComposer.mk grammarBase reg').compose) := by
  intro reg reg'
  have current := values_run_perm grammarSeed parserSeed ruleSeed calls
  refine ⟨⟨sortByPriority reg.grammarExtensions.values, (sortByPriority_perm _).trans current,
    sorted_sortByPriority _, filter_priority_sortByPriority _, composeGrammar_eq _ _⟩,
    fun tiesAgree => ?_⟩
  have texts : ∀ base, reg.composeGrammar base = reg'.composeGrammar base := fun base => by
    rw [composeGrammar_eq, composeGrammar_eq, flatMap_sortByPriority_eq
      (current.trans (values_run_perm grammarSeed' parserSeed' ruleSeed' calls).symm)]
    exact fun a aMem b bMem => tiesAgree a (current.subset aMem) b (current.subset bMem)
  exact ⟨texts base, by simp only [GrammarComposer.compose, texts []]⟩

theorem composeGrammar_seed_independent_of_priorities :
    let calls : List (Registration Unit) :=
      [.grammar GrammarComposer.choiceExtension,
        .grammar { GrammarComposer.timeoutExtension with priority := 200 }]
    let reg := (new .insertionOrder .insertionOrder .insertionOrder).run calls
    let reg' := (new .reversed .insertionOrder .insertionOrder).run calls
    (∃ order : List GrammarExtension,
      order.Perm (latestById (Registration.grammars calls)) ∧
      order.Sorted GrammarExtension.ByPriority ∧
      (∀ priority, order.filter (·.priority = priority) =
        reg.grammarExtensions.values.filter (·.priority = priority)) ∧
      reg.composeGrammar [] = [] ++ order.flatMap fun e => '\n' :: e.grammarRules) ∧
    (∀ a ∈ latestById (Registration.grammars calls),
      ∀ b ∈ latestById (Registration.grammars calls),
        a.priority = b.priority → a.grammarRules = b.grammarRules) ∧
    reg.composeGrammar [] = reg'.composeGrammar [] ∧
      (GrammarComposer.mk GrammarComposer.statementGrammar reg).compose =
        (GrammarComposer.mk GrammarComposer.statementGrammar reg').compose :=
  have conclusion := composeGrammar_order_seed_independent .insertionOrder .reversed
    .insertionOrder .insertionOrder .insertionOrder .insertionOrder _ []
    GrammarComposer.statementGrammar
  ⟨conclusion.1, by decide, conclusion.2 (by decide)⟩

/-- Ties between equal priorities follow the grammar map's seed: with two
extensions of the default priority, one seed emits them against their
registration order (the order a stable sort of the registrations gives), and
two registries built by the same calls compose different texts. -/
theorem composeGrammar_ties_follow_seed :
    (¬ ∀ (P : Type) (grammarSeed : RandomState (List Char) GrammarExtension)
        (parserSeed : RandomState (List Char) P) (ruleSeed : RandomState (List Char) (List Char))
        (extensions : List GrammarExtension) (base : List Char),
      (extensions.map GrammarExtension.extensionId).Nodup →
      ((new grammarSeed parserSeed ruleSeed).run (extensions.map .grammar)).composeGrammar base =
        base ++ (sortByPriority extensions).flatMap fun e => '\n' :: e.grammarRules) ∧
    ¬ ∀ (P : Type) (grammarSeed grammarSeed' : RandomState (List Char) GrammarExtension)
        (parserSeed : RandomState (List Char) P) (ruleSeed : RandomState (List Char) (List Char))
        (extensions : List GrammarExtension) (base : List Char),
      (extensions.map GrammarExtension.extensionId).Nodup →
      ((new grammarSeed parserSeed ruleSeed).run (extensions.map .grammar)).composeGrammar base =
        ((new grammarSeed' parserSeed ruleSeed).run (extensions.map .grammar)).composeGrammar base := by
  constructor
  · intro registrationOrder
    have := registrationOrder Unit .reversed .insertionOrder .insertionOrder
      [GrammarComposer.choiceExtension, GrammarComposer.timeoutExtension] [] (by decide)
    revert this
    decide
  · intro seedFree
    have := seedFree Unit .insertionOrder .reversed .insertionOrder .insertionOrder
      [GrammarComposer.choiceExtension, GrammarComposer.timeoutExtension] [] (by decide)
    revert this
    decide

end ExtensionRegistry

end RumpsteakAura
