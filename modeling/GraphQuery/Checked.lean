import GraphQuery.Error

/-!
# Results that may be errors

A `Checked` result is a value or the first error met. Decoders and renderers are written as
sequences of small steps: `require` checks a condition, `orFault` asks for a value that may be
missing. `bind_eq_ok_iff` and `bind_eq_error_iff` say how a sequence of steps ends.

Decoders look into JSON values as they go, and a look at a member that is missing or of another type
ends in an exception that is no error of theirs. A `Decoded` result may be that exception as well:
`Checked.asDecoded` makes a step of a decoder of a check, and `Decoded.catching` is the handler that
turns the exception into an error.
-/

namespace GraphQuery

/-- Either a result or the error that prevents it. -/
abbrev Checked (α : Type) := Except QueryError α

/-- Results are the same when they are the same value or the same error. -/
instance decidableEqExcept {ε α : Type} [DecidableEq ε] [DecidableEq α] : DecidableEq (Except ε α)
  | .ok a, .ok b => decidable_of_iff (a = b) (by simp)
  | .error e, .error e' => decidable_of_iff (e = e') (by simp)
  | .ok _, .error _ => isFalse (by simp)
  | .error _, .ok _ => isFalse (by simp)

variable {ε ε' α β : Type}

/-- Goes on where a condition holds, and fails with the error where it does not. -/
def require (condition : Bool) (fault : ε) : Except ε Unit :=
  if condition then .ok () else .error fault

/-- The value where there is one, and the error where there is none. -/
def orFault (value : Option α) (fault : ε) : Except ε α :=
  match value with
  | some v => .ok v
  | none => .error fault

@[simp] theorem require_true (fault : ε) : require true fault = .ok () := rfl

@[simp] theorem require_false (fault : ε) : require false fault = .error fault := rfl

@[simp] theorem require_eq_ok_iff {condition : Bool} {fault : ε} :
    require condition fault = .ok () ↔ condition = true := by
  cases condition <;> simp

@[simp] theorem require_eq_error_iff {condition : Bool} {fault e : ε} :
    require condition fault = .error e ↔ condition = false ∧ fault = e := by
  cases condition <;> simp

@[simp] theorem orFault_some (v : α) (fault : ε) : orFault (some v) fault = .ok v := rfl

@[simp] theorem orFault_none (fault : ε) :
    orFault (none : Option α) fault = .error fault := rfl

@[simp] theorem orFault_eq_ok_iff {value : Option α} {fault : ε} {v : α} :
    orFault value fault = .ok v ↔ value = some v := by
  cases value <;> simp

@[simp] theorem orFault_eq_error_iff {value : Option α} {fault e : ε} :
    orFault value fault = .error e ↔ value = none ∧ fault = e := by
  cases value <;> simp

@[simp] theorem pure_eq_ok_iff {a b : α} : (pure a : Except ε α) = .ok b ↔ a = b := by
  simp [pure, Except.pure]

/-- A check that succeeds has nothing to tell. -/
@[simp] theorem exists_unit_eq_ok_iff {x : Except ε Unit} : (∃ u, x = .ok u) ↔ x = .ok () :=
  ⟨fun ⟨_, h⟩ => h, fun h => ⟨(), h⟩⟩

@[simp] theorem ok_bind (a : α) (f : α → Except ε β) : (Except.ok a >>= f) = f a := rfl

@[simp] theorem error_bind (e : ε) (f : α → Except ε β) : (Except.error e >>= f) = .error e := rfl

@[simp] theorem ok_map (f : α → β) (a : α) : (Except.ok a : Except ε α).map f = .ok (f a) := rfl

/-- A sequence succeeds when its first step and what follows it succeed. -/
theorem bind_eq_ok_iff {x : Except ε α} {f : α → Except ε β} {b : β} :
    (x >>= f) = .ok b ↔ ∃ a, x = .ok a ∧ f a = .ok b := by
  cases x <;> simp [bind, Except.bind]

/-- A sequence has a result when its first step has one from which what follows has one. -/
theorem exists_bind_eq_ok_iff {x : Except ε α} {f : α → Except ε β} :
    (∃ b, (x >>= f) = .ok b) ↔ ∃ a, x = .ok a ∧ ∃ b, f a = .ok b := by
  simp only [bind_eq_ok_iff]
  constructor
  · rintro ⟨b, a, hx, hf⟩
    exact ⟨a, hx, b, hf⟩
  · rintro ⟨a, hx, b, hf⟩
    exact ⟨b, a, hx, hf⟩

theorem map_eq_ok_iff {x : Except ε α} {f : α → β} {b : β} :
    (f <$> x) = .ok b ↔ ∃ a, x = .ok a ∧ f a = b := by
  cases x <;> simp [Functor.map, Except.map]

/-- A sequence fails with the error of the first step that fails. -/
theorem bind_eq_error_iff {x : Except ε α} {f : α → Except ε β} {e : ε} :
    (x >>= f) = .error e ↔ x = .error e ∨ ∃ a, x = .ok a ∧ f a = .error e := by
  cases x <;> simp [bind, Except.bind]

/-! ### Other errors -/

@[simp] theorem ok_mapError (f : ε → ε') (a : α) :
    (Except.ok a : Except ε α).mapError f = .ok a := rfl

@[simp] theorem error_mapError (f : ε → ε') (e : ε) :
    (Except.error e : Except ε α).mapError f = .error (f e) := rfl

theorem mapError_eq_ok_iff {x : Except ε α} {f : ε → ε'} {a : α} :
    x.mapError f = .ok a ↔ x = .ok a := by
  cases x <;> simp

theorem mapError_eq_error_iff {x : Except ε α} {f : ε → ε'} {e : ε'} :
    x.mapError f = .error e ↔ ∃ d, x = .error d ∧ f d = e := by
  cases x <;> simp

theorem mapError_map (g : α → β) (x : Except ε α) (f : ε → ε') :
    (g <$> x).mapError f = g <$> x.mapError f := by
  cases x <;> rfl

/-- What ends a decoder: an exception of the JSON library, or an error of the decoder's own. -/
inductive DecodeFault where
  | json
  | query (e : QueryError)
  deriving DecidableEq, Repr

/-- The error of a fault, where exceptions of the JSON library are caught. -/
def DecodeFault.caught (fault : QueryError) : DecodeFault → QueryError
  | .json => fault
  | .query e => e

/-- Either what is decoded or the fault that ends the decoder. -/
abbrev Decoded (α : Type) := Except DecodeFault α

/-- A check as a step of a decoder. -/
def Checked.asDecoded (x : Checked α) : Decoded α :=
  x.mapError .query

/-- The result of a decoder whose exceptions of the JSON library are caught and become an error. -/
def Decoded.catching (x : Decoded α) (fault : QueryError) : Checked α :=
  x.mapError (DecodeFault.caught fault)

@[simp] theorem asDecoded_eq_ok_iff {x : Checked α} {a : α} : x.asDecoded = .ok a ↔ x = .ok a :=
  mapError_eq_ok_iff

@[simp] theorem catching_eq_ok_iff {x : Decoded α} {fault : QueryError} {a : α} :
    x.catching fault = .ok a ↔ x = .ok a :=
  mapError_eq_ok_iff

theorem catching_map (g : α → β) (x : Decoded α) (fault : QueryError) :
    (g <$> x).catching fault = g <$> x.catching fault :=
  mapError_map g x _

theorem asDecoded_map (g : α → β) (x : Checked α) : (g <$> x).asDecoded = g <$> x.asDecoded :=
  mapError_map g x _

end GraphQuery
