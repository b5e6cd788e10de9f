/-!
# Computations that may fail

How the outcome of a computation that is made of others tells theirs.
-/

namespace WhileCompiler

variable {ε ε' α β : Type}

/-- A computation that succeeded was successful in both of its parts. -/
theorem bind_eq_ok {first : Except ε α} {next : α → Except ε β} {result : β} :
    (first >>= next) = .ok result ↔ ∃ value, first = .ok value ∧ next value = .ok result := by
  cases first with
  | error error => simp [bind, Except.bind]
  | ok value => simp [bind, Except.bind]

/-- A computation that failed did so in one of its parts. -/
theorem bind_eq_error {first : Except ε α} {next : α → Except ε β} {error : ε} :
    (first >>= next) = .error error ↔
      first = .error error ∨ ∃ value, first = .ok value ∧ next value = .error error := by
  cases first with
  | error error => simp [bind, Except.bind]
  | ok value => simp [bind, Except.bind]

/-- A computation whose second part cannot fail does so where its first part does. -/
theorem bind_eq_error_of_isOk {first : Except ε α} {next : α → Except ε β} {error : ε}
    (hnext : ∀ value, ∃ result, next value = .ok result) :
    (first >>= next) = .error error ↔ first = .error error := by
  rw [bind_eq_error]
  refine ⟨fun h => h.resolve_right ?_, .inl⟩
  rintro ⟨value, -, herror⟩
  obtain ⟨result, hresult⟩ := hnext value
  cases hresult.symm.trans herror

theorem bind_pure_eq_error {first : Except ε α} {f : α → β} {error : ε} :
    (first >>= fun value => pure (f value)) = .error error ↔ first = .error error :=
  bind_eq_error_of_isOk fun value => ⟨f value, rfl⟩

theorem exists_eq_error_iff {outcome : Except ε α} :
    (∃ error, outcome = .error error) ↔ ¬∃ value, outcome = .ok value := by
  cases outcome with
  | error error => simp
  | ok value => simp

theorem bind_isOk_iff {first : Except ε α} {next : α → Except ε β} :
    (∃ result, (first >>= next) = .ok result) ↔
      ∃ value, first = .ok value ∧ ∃ result, next value = .ok result := by
  cases first with
  | error error => simp [bind, Except.bind]
  | ok value => simp [bind, Except.bind]

theorem pure_isOk_iff {value : α} :
    (∃ result, (pure value : Except ε α) = .ok result) ↔ True :=
  ⟨fun _ => trivial, fun _ => ⟨value, rfl⟩⟩

theorem map_isOk_iff {f : α → β} {first : Except ε α} :
    (∃ result, f <$> first = .ok result) ↔ ∃ value, first = .ok value := by
  cases first with
  | error error => simp [Functor.map, Except.map]
  | ok value => simp [Functor.map, Except.map]

theorem map_eq_ok {f : α → β} {first : Except ε α} {result : β} :
    f <$> first = .ok result ↔ ∃ value, first = .ok value ∧ f value = result := by
  cases first with
  | error error => simp [Functor.map, Except.map]
  | ok value => simp [Functor.map, Except.map]

theorem map_eq_error {f : α → β} {first : Except ε α} {error : ε} :
    f <$> first = .error error ↔ first = .error error := by
  cases first with
  | error error => simp [Functor.map, Except.map]
  | ok value => simp [Functor.map, Except.map]

theorem mapError_ok (f : ε → ε') (value : α) :
    (Except.ok value : Except ε α).mapError f = .ok value := rfl

theorem mapError_error (f : ε → ε') (error : ε) :
    (Except.error error : Except ε α).mapError f = .error (f error) := rfl

theorem mapError_bind (f : ε → ε') (first : Except ε α) (next : α → Except ε β) :
    (first >>= next).mapError f = first.mapError f >>= fun value => (next value).mapError f := by
  cases first with
  | error error => rfl
  | ok value => rfl

theorem mapError_map (f : ε → ε') (convert : α → β) (outcome : Except ε α) :
    (convert <$> outcome).mapError f = convert <$> outcome.mapError f := by
  cases outcome with
  | error error => rfl
  | ok value => rfl

theorem mapError_eq_ok {f : ε → ε'} {outcome : Except ε α} {value : α} :
    outcome.mapError f = .ok value ↔ outcome = .ok value := by
  cases outcome with
  | error error => simp [mapError_error]
  | ok value => simp [mapError_ok]

theorem mapError_eq_error {f : ε → ε'} {outcome : Except ε α} {error : ε'} :
    outcome.mapError f = .error error ↔ ∃ fault, outcome = .error fault ∧ f fault = error := by
  cases outcome with
  | error error => simp [mapError_error]
  | ok value => simp [mapError_ok]

end WhileCompiler
