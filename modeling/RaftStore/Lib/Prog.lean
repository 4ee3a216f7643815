import Mathlib.Logic.Basic

/-! Programs that read and change a state and may fail, with the state surviving a failure, and the
rules by which what a program does is proved from what its parts do. -/

namespace RaftStore.Lib

variable {ε σ τ α β : Type}

/-- Run from `s`, the program returns a result and a state that satisfy `Q`, or it fails with an
error and a state that satisfy `F`. -/
def Meets (x : EStateM ε σ α) (s : σ) (Q : α → σ → Prop) (F : ε → σ → Prop) : Prop :=
  match x s with
  | .ok a s' => Q a s'
  | .error e s' => F e s'

/-- The program on a part of the state. -/
def onPart (get : σ → τ) (put : τ → σ → σ) (x : EStateM ε τ α) : EStateM ε σ α := fun s =>
  match x (get s) with
  | .ok a t => .ok a (put t s)
  | .error e t => .error e (put t s)

/-- A computation that reads the state and may fail. -/
def reads (f : σ → Except ε α) : EStateM ε σ α := fun s =>
  match f s with
  | .ok a => .ok a s
  | .error e => .error e s

/-- The program with its errors rewritten. -/
def mapFail (g : ε → ε) (x : EStateM ε σ α) : EStateM ε σ α := fun s =>
  match x s with
  | .ok a s' => .ok a s'
  | .error e s' => .error (g e) s'

theorem eq_ok_of_toOption {x : Except ε α} {a : α} (h : x.toOption = some a) : x = .ok a := by
  cases x with
  | error e => exact nomatch h
  | ok b => exact congrArg _ (Option.some.inj h)

/-- The run succeeded, and its result and state pass the test. -/
def succeeds (test : α → σ → Bool) : EStateM.Result ε σ α → Bool
  | .ok a s => test a s
  | .error _ _ => false

theorem exists_ok_of_succeeds {test : α → σ → Bool} {x : EStateM.Result ε σ α}
    (h : succeeds test x = true) : ∃ a s, x = .ok a s ∧ test a s = true := by
  cases x with
  | ok a s => exact ⟨a, s, rfl, h⟩
  | error e s => cases h

variable {Q : α → σ → Prop} {F : ε → σ → Prop} {s : σ}

theorem Meets.mono {x : EStateM ε σ α} {Q' : α → σ → Prop} {F' : ε → σ → Prop}
    (h : Meets x s Q F) (hQ : ∀ a s', Q a s' → Q' a s') (hF : ∀ e s', F e s' → F' e s') :
    Meets x s Q' F' := by
  unfold Meets at h ⊢
  split <;> rename_i heq <;> rw [heq] at h
  · exact hQ _ _ h
  · exact hF _ _ h

theorem Meets.and {x : EStateM ε σ α} {Q' : α → σ → Prop} {F' : ε → σ → Prop}
    (h : Meets x s Q F) (h' : Meets x s Q' F') :
    Meets x s (fun a s' => Q a s' ∧ Q' a s') fun e s' => F e s' ∧ F' e s' := by
  unfold Meets at h h' ⊢
  split <;> rename_i hx <;> rw [hx] at h h' <;> exact ⟨h, h'⟩

theorem Meets.ok {x : EStateM ε σ α} {a : α} {s' : σ} (h : Meets x s Q F) (hx : x s = .ok a s') :
    Q a s' := by
  rwa [Meets, hx] at h

theorem Meets.error {x : EStateM ε σ α} {e : ε} {s' : σ} (h : Meets x s Q F)
    (hx : x s = .error e s') : F e s' := by
  rwa [Meets, hx] at h

theorem meets_of_ok {x : EStateM ε σ α} {a : α} {s' : σ} (hx : x s = .ok a s') (h : Q a s') :
    Meets x s Q F := by
  rwa [Meets, hx]

theorem Meets.eq_ok {x : EStateM ε σ α} {a : α} {s' : σ}
    (h : Meets x s (fun b t => b = a ∧ t = s') fun _ _ => False) : x s = .ok a s' := by
  unfold Meets at h
  split at h
  · rename_i hx
    rw [hx, h.1, h.2]
  · exact h.elim

/-- What a program does is what it is seen to do. -/
theorem meets_iff {x : EStateM ε σ α} :
    Meets x s Q F ↔ (∀ a s', x s = .ok a s' → Q a s') ∧ ∀ e s', x s = .error e s' → F e s' := by
  refine ⟨fun h => ⟨fun _ _ hx => h.ok hx, fun _ _ hx => h.error hx⟩, fun h => ?_⟩
  unfold Meets
  split <;> rename_i hx
  · exact h.1 _ _ hx
  · exact h.2 _ _ hx

theorem Meets.bind {x : EStateM ε σ α} {f : α → EStateM ε σ β} {Q' : β → σ → Prop}
    (h : Meets x s (fun a s' => Meets (f a) s' Q' F) F) : Meets (x >>= f) s Q' F := by
  unfold Meets at h ⊢
  change match EStateM.bind x f s with | .ok a s' => Q' a s' | .error e s' => F e s'
  unfold EStateM.bind
  split at h <;> rename_i heq <;> rw [heq]
  · exact h
  · exact h

@[simp] theorem meets_bind {x : EStateM ε σ α} {f : α → EStateM ε σ β} {Q' : β → σ → Prop} :
    Meets (x >>= f) s Q' F ↔ Meets x s (fun a s' => Meets (f a) s' Q' F) F := by
  refine ⟨fun h => ?_, Meets.bind⟩
  unfold Meets at h ⊢
  change match EStateM.bind x f s with | .ok a s' => Q' a s' | .error e s' => F e s' at h
  unfold EStateM.bind at h
  split <;> rename_i heq <;> rw [heq] at h
  · exact h
  · exact h

@[simp] theorem meets_pure {a : α} : Meets (pure a) s Q F ↔ Q a s := Iff.rfl

@[simp] theorem meets_throw {e : ε} : Meets (throw e) s Q F ↔ F e s := Iff.rfl

@[simp] theorem meets_get {Q : σ → σ → Prop} : Meets get s Q F ↔ Q s s := Iff.rfl

@[simp] theorem meets_set {t : σ} {Q : PUnit → σ → Prop} : Meets (set t) s Q F ↔ Q ⟨⟩ t := Iff.rfl

@[simp] theorem meets_modify {f : σ → σ} {Q : PUnit → σ → Prop} :
    Meets (modify f) s Q F ↔ Q ⟨⟩ (f s) := Iff.rfl

@[simp] theorem meets_reads {f : σ → Except ε α} :
    Meets (reads f) s Q F ↔ (∀ a, f s = .ok a → Q a s) ∧ (∀ e, f s = .error e → F e s) := by
  unfold Meets reads
  cases f s <;> simp

@[simp] theorem meets_onPart {get : σ → τ} {put : τ → σ → σ} {x : EStateM ε τ α} :
    Meets (onPart get put x) s Q F ↔
      Meets x (get s) (fun a t => Q a (put t s)) (fun e t => F e (put t s)) := by
  unfold Meets onPart
  cases x (get s) <;> exact Iff.rfl

@[simp] theorem meets_mapFail {g : ε → ε} {x : EStateM ε σ α} :
    Meets (mapFail g x) s Q F ↔ Meets x s Q (fun e s' => F (g e) s') := by
  unfold Meets mapFail
  cases x s <;> exact Iff.rfl

/-- A caught failure continues in the state it failed in. -/
@[simp] theorem meets_tryCatch {x : EStateM ε σ α} {h : ε → EStateM ε σ α} :
    Meets (tryCatch x h) s Q F ↔ Meets x s Q (fun e s' => Meets (h e) s' Q F) := by
  unfold Meets
  change (match EStateM.tryCatch x h s with | .ok a s' => Q a s' | .error e s' => F e s') ↔ _
  unfold EStateM.tryCatch
  cases x s <;> exact Iff.rfl

end RaftStore.Lib
