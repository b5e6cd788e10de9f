/-!
# Bindings of names

A finite map from names to values that remembers one value for each name.  Types of variables,
counters of fresh names and addresses of labels are kept in it.
-/

namespace WhileCompiler

structure Bindings (α : Type) where
  entries : List (String × α)
  deriving Repr

namespace Bindings

variable {α : Type}

def empty : Bindings α := ⟨[]⟩

def get? (bindings : Bindings α) (name : String) : Option α :=
  bindings.entries.lookup name

/-- Binds `name`, replacing what it was bound to. -/
def insert (bindings : Bindings α) (name : String) (value : α) : Bindings α :=
  ⟨(name, value) :: bindings.entries.filter fun entry => entry.1 ≠ name⟩

def names (bindings : Bindings α) : List String :=
  bindings.entries.map Prod.fst

/-- Binds each name in turn, so that the last value given to a name stays. -/
def ofList (entries : List (String × α)) : Bindings α :=
  entries.foldl (fun bindings entry => bindings.insert entry.1 entry.2) empty

@[simp] theorem get?_empty (name : String) : (empty : Bindings α).get? name = none := rfl

private theorem lookup_filter_ne {name other : String} (hne : other ≠ name) :
    ∀ entries : List (String × α),
      (entries.filter fun entry => entry.1 ≠ name).lookup other = entries.lookup other
  | [] => rfl
  | (key, value) :: rest => by
      have ih := lookup_filter_ne hne rest
      by_cases hkey : key = name
      · subst hkey
        have hother : (other == key) = false := by simp [hne]
        simpa [List.lookup_cons, hother] using ih
      · simp only [ne_eq, hkey, not_false_eq_true, decide_true, List.filter_cons_of_pos,
          List.lookup_cons]
        split
        · rfl
        · simpa using ih

theorem get?_insert_self (bindings : Bindings α) (name : String) (value : α) :
    (bindings.insert name value).get? name = some value := by
  simp [get?, insert]

theorem get?_insert_of_ne (bindings : Bindings α) (value : α) {name other : String}
    (hne : other ≠ name) : (bindings.insert name value).get? other = bindings.get? other := by
  have hkey : (other == name) = false := by simp [hne]
  simp only [get?, insert, List.lookup_cons, hkey]
  exact lookup_filter_ne hne bindings.entries

theorem get?_insert (bindings : Bindings α) (name other : String) (value : α) :
    (bindings.insert name value).get? other =
      if other = name then some value else bindings.get? other := by
  split
  · next heq => subst heq; exact get?_insert_self bindings other value
  · next hne => exact get?_insert_of_ne bindings value hne

end Bindings

end WhileCompiler
