import RaftStore.Lib.Prog
import Mathlib.Order.Defs.Unbundled

/-! Programs that move the state along a preorder, whether they fail or not, or without failing.  What
the preorder keeps is kept by a program as soon as each of its steps keeps it. -/

namespace RaftStore.Lib

variable {ε σ τ α β : Type} {R : σ → σ → Prop} {s s' : σ}

/-- Run from `s`, the program ends in a state that `s` is related to. -/
def Along (R : σ → σ → Prop) (x : EStateM ε σ α) (s : σ) : Prop :=
  Meets x s (fun _ s' => R s s') fun _ s' => R s s'

namespace Along

theorem mono {R' : σ → σ → Prop} {x : EStateM ε σ α} (h : Along R x s)
    (hR : ∀ s', R s s' → R' s s') : Along R' x s :=
  Meets.mono h (fun _ => hR) fun _ => hR

theorem set (h : R s s') : Along R (set s' : EStateM ε σ PUnit) s := h

theorem modify {f : σ → σ} (h : R s (f s)) : Along R (modify f : EStateM ε σ PUnit) s := h

theorem get_bind {f : σ → EStateM ε σ α} (h : Along R (f s) s) : Along R (get >>= f) s :=
  Meets.bind h

theorem mapFail {x : EStateM ε σ α} {g : ε → ε} (h : Along R x s) : Along R (mapFail g x) s :=
  meets_mapFail.mpr h

/-- A program on a part of the state, whatever it does there. -/
theorem onPart {get : σ → τ} {put : τ → σ → σ} {x : EStateM ε τ α} (h : ∀ t, R s (put t s)) :
    Along R (onPart get put x) s :=
  meets_onPart.mpr (meets_iff.mpr ⟨fun _ t _ => h t, fun _ t _ => h t⟩)

/-- A program that moves a part of the state along a relation of its own. -/
theorem inPart {get : σ → τ} {put : τ → σ → σ} {x : EStateM ε τ α} {R' : τ → τ → Prop}
    (hx : Along R' x (get s)) (h : ∀ t, R' (get s) t → R s (put t s)) :
    Along R (Lib.onPart get put x) s :=
  meets_onPart.mpr (Meets.mono hx (fun _ t => h t) fun _ t => h t)

section Preorder

variable [IsPreorder σ R]

theorem pure (a : α) : Along R (pure a : EStateM ε σ α) s := refl_of R s

theorem throw (e : ε) : Along R (throw e : EStateM ε σ α) s := refl_of R s

/-- After a step along `R`, a program along `R` moves on from before the step. -/
theorem after {x : EStateM ε σ α} (hs : R s s') (h : Along R x s') :
    Meets x s' (fun _ s'' => R s s'') fun _ s'' => R s s'' :=
  Meets.mono h (fun _ _ h' => trans_of R hs h') fun _ _ h' => trans_of R hs h'

/-- The second program may rely on what the first one has kept. -/
theorem andThen {x : EStateM ε σ α} {f : α → EStateM ε σ β} (hx : Along R x s)
    (hf : ∀ a s', R s s' → Along R (f a) s') : Along R (x >>= f) s :=
  Meets.bind (Meets.mono hx (fun a s' h => (hf a s' h).after h) fun _ _ h => h)

theorem bind {x : EStateM ε σ α} {f : α → EStateM ε σ β} (hx : Along R x s)
    (hf : ∀ a s', Along R (f a) s') : Along R (x >>= f) s :=
  hx.andThen fun a s' _ => hf a s'

theorem set_bind {f : PUnit → EStateM ε σ α} (hs : R s s') (hf : Along R (f ⟨⟩) s') :
    Along R (MonadStateOf.set s' >>= f) s := by
  rw [Along, meets_bind]
  exact hf.after hs

theorem tryCatch {x : EStateM ε σ α} {h : ε → EStateM ε σ α} (hx : Along R x s)
    (hh : ∀ e s', R s s' → Along R (h e) s') : Along R (tryCatch x h) s :=
  meets_tryCatch.mpr (Meets.mono hx (fun _ _ h => h) fun e s' h => (hh e s' h).after h)

end Preorder

end Along

/-- Run from `s`, the program does not fail, and ends in a state that `s` is related to. -/
def Surely (R : σ → σ → Prop) (x : EStateM ε σ α) (s : σ) : Prop :=
  Meets x s (fun _ s' => R s s') fun _ _ => False

namespace Surely

theorem along {x : EStateM ε σ α} (h : Surely R x s) : Along R x s :=
  Meets.mono h (fun _ _ h => h) fun _ _ h => h.elim

theorem mono {R' : σ → σ → Prop} {x : EStateM ε σ α} (h : Surely R x s)
    (hR : ∀ s', R s s' → R' s s') : Surely R' x s :=
  Meets.mono h (fun _ => hR) fun _ _ h => h

theorem modify {f : σ → σ} (h : R s (f s)) : Surely R (modify f : EStateM ε σ PUnit) s := h

theorem get_bind {f : σ → EStateM ε σ α} (h : Surely R (f s) s) : Surely R (get >>= f) s :=
  Meets.bind h

variable [IsPreorder σ R]

theorem pure (a : α) : Surely R (pure a : EStateM ε σ α) s := refl_of R s

theorem after {x : EStateM ε σ α} (hs : R s s') (h : Surely R x s') :
    Meets x s' (fun _ s'' => R s s'') fun _ _ => False :=
  Meets.mono h (fun _ _ h' => trans_of R hs h') fun _ _ h => h

theorem andThen {x : EStateM ε σ α} {f : α → EStateM ε σ β} (hx : Surely R x s)
    (hf : ∀ a s', R s s' → Surely R (f a) s') : Surely R (x >>= f) s :=
  Meets.bind (Meets.mono hx (fun a s' h => (hf a s' h).after h) fun _ _ h => h)

theorem bind {x : EStateM ε σ α} {f : α → EStateM ε σ β} (hx : Surely R x s)
    (hf : ∀ a s', Surely R (f a) s') : Surely R (x >>= f) s :=
  hx.andThen fun a s' _ => hf a s'

end Surely

end RaftStore.Lib
