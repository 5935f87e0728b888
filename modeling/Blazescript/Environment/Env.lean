import Blazescript.Arena.Heap

/-!
# Environments

A forest of frames, each binding some names to values with a constant flag. A name is looked up
along the chain of parents, and means its innermost binding.
-/

namespace Environment

open Arena

variable {κ β : Type}

/-- The parents of the frames, and what each frame binds a name to: a value and whether it is
constant. -/
@[ext]
structure Env (κ β : Type) where
  parent : Nat → Option Nat
  vars : Nat → κ → Option (β × Bool)

namespace Env

/-- The innermost frame, from `i` up, that binds `k`. -/
def binder (env : Env κ β) (i : Nat) (k : κ) : Option Nat :=
  (chain env.parent i).find? fun j => (env.vars j k).isSome

/-- The innermost binding of `k`, from frame `i` up. -/
def find (env : Env κ β) (i : Nat) (k : κ) : Option (β × Bool) :=
  (env.binder i k).bind fun j => env.vars j k

/-- The environment in which frame `i` binds `k` to `b`. -/
def bind [DecidableEq κ] (env : Env κ β) (i : Nat) (k : κ) (b : β × Bool) : Env κ β :=
  { env with vars := fun j k' => if j = i ∧ k' = k then some b else env.vars j k' }

/-- Every constant of `env` is a constant of `env'`, with the same value. -/
def KeepsConstants (env env' : Env κ β) : Prop :=
  ∀ i k v, env.vars i k = some (v, true) → env'.vars i k = some (v, true)

/-- Some frames bind the same names in `env'` as in `env`, and as constant as there. Only variables with
names of a kind have other values. -/
structure RetainedIn (env env' : Env κ β) (frames : List Nat) (assigned : κ → Prop) : Prop where
  unbound : ∀ i ∈ frames, ∀ k, env.vars i k = none → env'.vars i k = none
  const : ∀ i ∈ frames, ∀ k v, env.vars i k = some (v, true) → env'.vars i k = some (v, true)
  var : ∀ i ∈ frames, ∀ k v, env.vars i k = some (v, false) →
    ∃ v', env'.vars i k = some (v', false) ∧ (v' = v ∨ assigned k)

end Env

end Environment
