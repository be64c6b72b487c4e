import Mathlib.Data.List.Nodup
import Mathlib.Data.List.Perm.Basic

/-!
# Hash maps with an unspecified iteration order

`std::collections::HashMap` is an association list with one entry per key.
An insert under a live key replaces its value where it stands; an insert
under a new key adds an entry.  Lookups see nothing else.

Iteration is the one place where the table shows through: a map yields its
entries in an order fixed by its `RandomState` seed, drawn afresh for every
map, and the standard library promises no particular order.  The model keeps
that seed as a field, an arbitrary permutation of the entries, so a statement
about iteration holds for every seed or names the seed it needs.
-/

namespace RumpsteakAura

/-- `std::collections::hash_map::RandomState`, seen through what the registry
observes of it: the order in which a map yields its entries. -/
structure RandomState (K V : Type) where
  order : List (K × V) → List (K × V)
  order_perm : ∀ entries, (order entries).Perm entries

/-- A seed under which a map yields its entries in insertion order. -/
def RandomState.insertionOrder {K V : Type} : RandomState K V :=
  ⟨id, List.Perm.refl⟩

/-- A seed under which a map yields its entries in reverse insertion order. -/
def RandomState.reversed {K V : Type} : RandomState K V :=
  ⟨List.reverse, List.reverse_perm⟩

/-- The entries after writing `value` under `key`: the entry of a live key is
replaced in place, a new key is appended. -/
def insertEntries {K V : Type} [DecidableEq K] :
    List (K × V) → K → V → List (K × V)
  | [], key, value => [(key, value)]
  | entry :: rest, key, value =>
      if entry.1 = key then (key, value) :: rest else entry :: insertEntries rest key value

section Entries

variable {K V : Type} [DecidableEq K]

theorem keys_insertEntries (entries : List (K × V)) (key : K) (value : V) :
    (insertEntries entries key value).map Prod.fst =
      if key ∈ entries.map Prod.fst then entries.map Prod.fst
      else entries.map Prod.fst ++ [key] := by
  induction entries with
  | nil => rfl
  | cons entry rest ih =>
      by_cases here : entry.1 = key
      · simp [insertEntries, here]
      · by_cases later : key ∈ rest.map Prod.fst <;>
          simp_all [insertEntries, Ne.symm here]

theorem nodup_keys_insertEntries {entries : List (K × V)} (key : K) (value : V)
    (distinct : (entries.map Prod.fst).Nodup) :
    ((insertEntries entries key value).map Prod.fst).Nodup := by
  rw [keys_insertEntries]
  split
  · exact distinct
  · next fresh =>
      rw [List.nodup_append]
      exact ⟨distinct, List.nodup_singleton key, by simpa using fresh⟩

theorem lookup_cons_eq_ite (entry : K × V) (rest : List (K × V)) (k : K) :
    (entry :: rest).lookup k = if k = entry.1 then some entry.2 else rest.lookup k := by
  obtain ⟨key, value⟩ := entry
  by_cases same : k = key
  · simp [List.lookup_cons, same]
  · simp [List.lookup_cons, beq_false_of_ne same, same]

theorem lookup_insertEntries (entries : List (K × V)) (key k : K) (value : V) :
    (insertEntries entries key value).lookup k =
      if k = key then some value else entries.lookup k := by
  induction entries with
  | nil => simp [insertEntries, lookup_cons_eq_ite]
  | cons entry rest ih =>
      by_cases same : k = key
      · subst same
        by_cases here : entry.1 = k
        · simp [insertEntries, lookup_cons_eq_ite, here]
        · simp [insertEntries, lookup_cons_eq_ite, here, Ne.symm here, ih]
      · by_cases here : entry.1 = key <;>
          simp [insertEntries, lookup_cons_eq_ite, here, same, ih]

/-- Writing the value a key already has leaves the entries as they are. -/
theorem insertEntries_of_lookup_eq {entries : List (K × V)} {key : K} {value : V}
    (present : entries.lookup key = some value) : insertEntries entries key value = entries := by
  induction entries with
  | nil => cases present
  | cons entry rest ih =>
      obtain ⟨first, stored⟩ := entry
      rw [lookup_cons_eq_ite] at present
      by_cases here : first = key
      · subst here
        simp only [if_true, Option.some.injEq] at present
        simp [insertEntries, present]
      · rw [if_neg (Ne.symm here)] at present
        simp [insertEntries, here, ih present]

theorem mem_insertEntries {entries : List (K × V)} {key : K} {value : V} {entry : K × V}
    (mem : entry ∈ insertEntries entries key value) :
    entry ∈ entries ∨ entry = (key, value) := by
  induction entries with
  | nil => simpa [insertEntries] using mem
  | cons first rest ih =>
      unfold insertEntries at mem
      split at mem
      · rcases List.mem_cons.mp mem with rfl | later
        · exact .inr rfl
        · exact .inl (List.mem_cons_of_mem _ later)
      · rcases List.mem_cons.mp mem with rfl | later
        · exact .inl (List.mem_cons_self _ _)
        · exact (ih later).imp_left (List.mem_cons_of_mem _)

/-- With distinct keys, an insert is a removal of the key's entry followed by
an append. -/
theorem insertEntries_perm {entries : List (K × V)} (key : K) (value : V)
    (distinct : (entries.map Prod.fst).Nodup) :
    (insertEntries entries key value).Perm
      (entries.filter (fun entry => entry.1 ≠ key) ++ [(key, value)]) := by
  induction entries with
  | nil => rfl
  | cons entry rest ih =>
      rw [List.map_cons, List.nodup_cons] at distinct
      by_cases here : entry.1 = key
      · have others : rest.filter (fun entry => entry.1 ≠ key) = rest :=
          List.filter_eq_self.mpr fun other mem => by
            have : other.1 ≠ key := fun same =>
              distinct.1 (here ▸ same ▸ List.mem_map_of_mem Prod.fst mem)
            simpa using this
        simp only [insertEntries, here, if_true, List.filter_cons, ne_eq, not_true_eq_false,
          decide_False, Bool.false_eq_true, if_false, others]
        exact (List.perm_append_singleton _ _).symm
      · simp only [insertEntries, here, if_false, List.filter_cons, ne_eq, not_false_eq_true,
          decide_True, if_true, List.cons_append]
        exact (ih distinct.2).cons entry

end Entries

/-- A hash map: its seed and its live entries, one per key. -/
structure HashMap (K V : Type) [DecidableEq K] where
  hasher : RandomState K V
  entries : List (K × V)
  keys_nodup : (entries.map Prod.fst).Nodup

namespace HashMap

variable {K V : Type} [DecidableEq K]

/-- `HashMap::with_hasher`: an empty map over a seed. -/
def new (hasher : RandomState K V) : HashMap K V :=
  ⟨hasher, [], List.nodup_nil⟩

/-- `HashMap::insert`. -/
def insert (m : HashMap K V) (key : K) (value : V) : HashMap K V :=
  ⟨m.hasher, insertEntries m.entries key value,
    nodup_keys_insertEntries key value m.keys_nodup⟩

/-- `HashMap::get`. -/
def get (m : HashMap K V) (key : K) : Option V :=
  m.entries.lookup key

/-- `HashMap::contains_key`. -/
def containsKey (m : HashMap K V) (key : K) : Bool :=
  (m.get key).isSome

/-- `HashMap::values`, in the seed's order. -/
def values (m : HashMap K V) : List V :=
  (m.hasher.order m.entries).map Prod.snd

/-- `HashMap::len`. -/
def len (m : HashMap K V) : Nat :=
  m.entries.length

@[simp]
theorem get_new (hasher : RandomState K V) (key : K) : (new hasher).get key = none :=
  rfl

@[simp]
theorem get_insert (m : HashMap K V) (key k : K) (value : V) :
    (m.insert key value).get k = if k = key then some value else m.get k :=
  lookup_insertEntries _ _ _ _

@[simp]
theorem insert_hasher (m : HashMap K V) (key : K) (value : V) :
    (m.insert key value).hasher = m.hasher :=
  rfl

theorem insert_of_get_eq {m : HashMap K V} {key : K} {value : V}
    (present : m.get key = some value) : m.insert key value = m := by
  obtain ⟨hasher, entries, distinct⟩ := m
  simp only [insert, mk.injEq, true_and]
  exact insertEntries_of_lookup_eq present

theorem values_perm (m : HashMap K V) : m.values.Perm (m.entries.map Prod.snd) :=
  (m.hasher.order_perm m.entries).map Prod.snd

end HashMap

end RumpsteakAura
