import Concolic.Machine.Failure

/-
# Actions

An action changes a state and either answers or fails.  What it changed before it failed stays
changed: an instruction that finds an operand of the wrong width on the stack has already popped it.
So an action gives back the state in both cases, and a sequence of actions stops at the first
failure with the state reached by then.
-/
namespace Concolic

/-- An action on states of type `σ` that answers with an `α`. -/
def Act (σ α : Type) : Type := σ → Except Failure α × σ

namespace Act

instance : Monad (Act σ) where
  pure a := fun s => (.ok a, s)
  bind m f := fun s =>
    match m s with
    | (.ok a, t) => f a t
    | (.error e, t) => (.error e, t)

instance : MonadStateOf σ (Act σ) where
  get := fun s => (.ok s, s)
  set s := fun _ => (.ok (), s)
  modifyGet f := fun s => let (a, t) := f s; (.ok a, t)

/-- Fails and leaves the state as it is. -/
def fail (e : Failure) : Act σ α := fun s => (.error e, s)

/-- Fails because an invariant is broken. -/
def violated (v : Violation) : Act σ α := fail (.violation v)

/-- Fails unless `b`. -/
def ensure (b : Bool) (v : Violation) : Act σ Unit :=
  if b then pure () else violated v

/-- A computation without state as an action. -/
def ofExcept (r : Except Violation α) : Act σ α :=
  match r with
  | .ok a => pure a
  | .error v => violated v

/-- An action on a part of the state. -/
def zoom (get : σ → τ) (put : τ → σ → σ) (m : Act τ α) : Act σ α := fun s =>
  let (r, t) := m (get s)
  (r, put t s)

@[simp] theorem pure_apply (a : α) (s : σ) : (pure a : Act σ α) s = (.ok a, s) := rfl

theorem bind_apply (m : Act σ α) (f : α → Act σ β) (s : σ) :
    (m >>= f) s =
      match m s with
      | (.ok a, t) => f a t
      | (.error e, t) => (.error e, t) := rfl

theorem get_bind_apply (f : σ → Act σ β) (s : σ) : (get >>= f) s = f s s := rfl

@[simp] theorem fail_apply (e : Failure) (s : σ) : (fail e : Act σ α) s = (.error e, s) := rfl

@[simp] theorem fail_bind (e : Failure) (f : α → Act σ β) : (fail e >>= f) = fail e := rfl

theorem id_map_act (m : Act σ α) : id <$> m = m := by
  funext s
  simp only [Functor.map]
  rcases m s with ⟨r | r, t⟩ <;> rfl

theorem bind_assoc_act (m : Act σ α) (f : α → Act σ β) (g : β → Act σ γ) :
    m >>= f >>= g = m >>= fun a => f a >>= g := by
  funext s
  simp only [bind]
  rcases m s with ⟨r | r, t⟩ <;> rfl

instance : LawfulMonad (Act σ) :=
  LawfulMonad.mk' (Act σ) id_map_act (fun _ _ => rfl) bind_assoc_act

theorem discard_bind (x : Act σ α) (y : Act σ β) : (do discard x; y) = x >>= fun _ => y :=
  bind_assoc x _ _

end Act

end Concolic
