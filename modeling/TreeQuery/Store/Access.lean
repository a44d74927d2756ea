import TreeQuery.Store.Basic

/-!
# Computations that call a store

`Access α` is a computation that makes calls one after the other and ends in
an `α`. It is a tree: at each inner node stands a call, below it one branch
for every possible answer. Nothing is said about who answers. `run` lets a
store answer them all and keeps the log; a driver that stops between two calls
goes down the tree node by node.
-/

namespace TreeQuery

/-- A computation that may call a store. -/
inductive Access (α : Type) : Type
  /-- Nothing is left to do. -/
  | done (value : α)
  /-- Make a call and go on with its answer. -/
  | ask (call : Call) (next : call.Answer → Access α)

namespace Access

variable {α β : Type}

/-- First one computation, then another that depends on its value. -/
def bind : Access α → (α → Access β) → Access β
  | done a, f => f a
  | ask c k, f => ask c fun answer => (k answer).bind f

instance : Monad Access where
  pure := done
  bind := bind

/-- The names in a directory. -/
def list (p : Path) : Access (Except Refusal (List String)) :=
  ask (.list p) done

/-- What is known about an entry. -/
def stat (p : Path) : Access (Except Refusal Metadata) :=
  ask (.stat p) done

/-- The bytes of a file. -/
def read (p : Path) : Access (Except Refusal Bytes) :=
  ask (.read p) done

/-- Let a store answer every call. The result is the value together with the
calls made, in order. -/
def run (s : Store) : Access α → α × List Call
  | done a => (a, [])
  | ask c k =>
    let (a, log) := (k (s c)).run s
    (a, c :: log)

@[simp] theorem pure_eq_done (a : α) : (pure a : Access α) = done a := rfl

@[simp] theorem bind_done (a : α) (f : α → Access β) : (done a >>= f) = f a := rfl

@[simp] theorem bind_ask (c : Call) (k : c.Answer → Access α) (f : α → Access β) :
    (ask c k >>= f) = ask c fun answer => k answer >>= f := rfl

@[simp] theorem run_done (s : Store) (a : α) : (done a).run s = (a, []) := rfl

@[simp] theorem run_ask (s : Store) (c : Call) (k : c.Answer → Access α) :
    (ask c k).run s = (((k (s c)).run s).1, c :: ((k (s c)).run s).2) := rfl

/-- A sequence of two computations makes the calls of the first and then those
of the second. -/
theorem run_bind (s : Store) (m : Access α) (f : α → Access β) :
    (m >>= f).run s =
      (((f (m.run s).1).run s).1, (m.run s).2 ++ ((f (m.run s).1).run s).2) := by
  induction m with
  | done a => simp
  | ask c k ih => simp [ih]

theorem run_map (s : Store) (f : α → β) (m : Access α) :
    (f <$> m).run s = (f (m.run s).1, (m.run s).2) := by
  show (m >>= fun a => done (f a)).run s = _
  rw [run_bind, run_done, List.append_nil]

theorem bind_pure (m : Access α) : m >>= pure = m := by
  induction m with
  | done a => rfl
  | ask c k ih => exact congrArg (ask c) (funext fun answer => ih answer)

theorem bind_assoc {γ : Type} (m : Access α) (f : α → Access β) (g : β → Access γ) :
    m >>= f >>= g = m >>= fun a => f a >>= g := by
  induction m with
  | done a => rfl
  | ask c k ih => exact congrArg (ask c) (funext fun answer => ih answer)

instance : LawfulMonad Access :=
  LawfulMonad.mk' Access bind_pure (fun _ _ => rfl) (fun m f g => bind_assoc m f g)

end Access

end TreeQuery
