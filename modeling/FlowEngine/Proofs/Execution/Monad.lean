import FlowEngine.Execution.Basic
import FlowEngine.Proofs.Program.History

/-!
# Programs in a scope chain

`Exec.on` runs a program in a scope chain. The equations below take every
combinator apart, so that programs of steps can be followed effect by effect, and
`Exec.Obeys` states a protocol for a program whatever the scope chain is.
-/
namespace FlowEngine.Exec

variable {α β : Type}

def on (x : Exec α) (s : Scope) : Program (Except Failure α × Scope) := x s

def after (f : α → Exec β) : Except Failure α × Scope → Program (Except Failure β × Scope)
  | (.ok a, s) => (f a).on s
  | (.error e, s) => .pure (.error e, s)

@[simp] theorem after_ok (f : α → Exec β) (a : α) (s : Scope) :
    after f (.ok a, s) = (f a).on s := rfl

@[simp] theorem after_error (f : α → Exec β) (e : Failure) (s : Scope) :
    after f (.error e, s) = .pure (.error e, s) := rfl

@[simp] theorem on_pure (a : α) (s : Scope) : on (pure a) s = .pure (.ok a, s) := rfl

@[simp] theorem on_throw (e : Failure) (s : Scope) :
    on (throw e : Exec α) s = .pure (.error e, s) := rfl

@[simp] theorem on_bind (x : Exec α) (f : α → Exec β) (s : Scope) :
    on (x >>= f) s = (on x s).bind (after f) := by
  change (on x s).bind _ = _
  congr 1
  funext ⟨r, s'⟩
  cases r <;> rfl

@[simp] theorem on_map (g : α → β) (x : Exec α) (s : Scope) :
    on (g <$> x) s = (on x s).bind (after fun a => pure (g a)) := by
  rw [map_eq_pure_bind, on_bind]

@[simp] theorem on_ask (e : Effect) (s : Scope) :
    on (ask e) s = .perform e fun a => .pure (.ok a, s) := rfl

@[simp] theorem on_modify (g : Scope → Scope) (s : Scope) :
    on (modify g) s = .pure (.ok ⟨⟩, g s) := rfl

@[simp] theorem on_outcome (x : Exec α) (s : Scope) :
    on x.outcome s = (on x s).bind fun (r, s') => .pure (.ok r, s') := rfl

@[simp] theorem on_ofResult (r : Except Failure α) (s : Scope) :
    on (ofResult r) s = .pure (r, s) := by
  cases r <;> rfl

@[simp] theorem on_orFail (r : Except EngineError α) (s : Scope) :
    on (orFail r) s = .pure (r.mapError EngineError.toFailure, s) := on_ofResult _ s

@[simp] theorem on_decided (d : Scope → Except Control.Fault α) (s : Scope) :
    on (decided d) s = .pure ((d s).mapError fun f => f.toError.toFailure, s) :=
  on_ofResult _ s

@[simp] theorem on_evaluate (e : Expr) (s : Scope) :
    on (evaluate e) s = .pure ((Control.evaluate e s).mapError fun f => f.toError.toFailure, s) :=
  on_decided _ s

@[simp] theorem on_inFrame (enter : Scope → Scope) (body : Exec α) (s : Scope) :
    on (inFrame enter body) s = (on body (enter s)).bind fun (r, s') => .pure (r, s'.leave) := by
  simp only [inFrame, on_bind, on_modify, Program.bind_pure_left, after_ok, on_outcome,
    Program.bind_assoc, on_ofResult]

/-! ## Protocols -/

variable {σ : Type} {P : Protocol σ}

def Obeys (P : Protocol σ) (x : Exec α) (Q : σ → Except Failure α → Prop) (t : σ) : Prop :=
  ∀ s, (x.on s).Obeys P (fun u p => Q u p.1) t

theorem Obeys.mono {x : Exec α} {Q R : σ → Except Failure α → Prop} {t : σ}
    (h : x.Obeys P Q t) (hQR : ∀ u r, Q u r → R u r) : x.Obeys P R t :=
  fun s => (h s).mono fun u p => hQR u p.1

@[simp] theorem obeys_ofResult {r : Except Failure α} {Q : σ → Except Failure α → Prop} {t : σ} :
    (ofResult r).Obeys P Q t ↔ Q t r := by
  simp [Obeys]

@[simp] theorem obeys_pure {a : α} {Q : σ → Except Failure α → Prop} {t : σ} :
    (pure a : Exec α).Obeys P Q t ↔ Q t (.ok a) := by
  simp [Obeys]

@[simp] theorem obeys_throw {e : Failure} {Q : σ → Except Failure α → Prop} {t : σ} :
    (throw e : Exec α).Obeys P Q t ↔ Q t (.error e) := by
  simp [Obeys]

@[simp] theorem obeys_orFail {r : Except EngineError α} {Q : σ → Except Failure α → Prop} {t : σ} :
    (orFail r).Obeys P Q t ↔ Q t (r.mapError EngineError.toFailure) := by
  simp [Obeys]

@[simp] theorem obeys_modify {g : Scope → Scope} {Q : σ → Except Failure Unit → Prop} {t : σ} :
    (modify g : Exec Unit).Obeys P Q t ↔ Q t (.ok ()) := by
  simp [Obeys]

@[simp] theorem obeys_ask {e : Effect} {Q : σ → Except Failure e.Answer → Prop} {t : σ} :
    (ask e).Obeys P Q t ↔ P.allows t e ∧ ∀ a u, P.moves t e a u → Q u (.ok a) := by
  simp [Obeys]

theorem obeys_bind {x : Exec α} {f : α → Exec β} {Q : σ → Except Failure β → Prop} {t : σ}
    (h : x.Obeys P (fun u r => match r with
      | .ok a => (f a).Obeys P Q u
      | .error e => Q u (.error e)) t) : (x >>= f).Obeys P Q t := by
  intro s
  rw [on_bind, Program.obeys_bind]
  refine (h s).mono ?_
  rintro u ⟨r, s'⟩ hr
  cases r with
  | ok a => exact hr s'
  | error e => exact hr

theorem obeys_outcome {x : Exec α} {Q : σ → Except Failure (Except Failure α) → Prop} {t : σ}
    (h : x.Obeys P (fun u r => Q u (.ok r)) t) : x.outcome.Obeys P Q t := by
  intro s
  rw [on_outcome, Program.obeys_bind]
  exact h s

theorem obeys_inFrame {enter : Scope → Scope} {body : Exec α} {Q : σ → Except Failure α → Prop}
    {t : σ} (h : body.Obeys P Q t) : (inFrame enter body).Obeys P Q t := by
  intro s
  rw [on_inFrame, Program.obeys_bind]
  exact h (enter s)

theorem obeys_decided_bind {d : Scope → Except Control.Fault α} {f : α → Exec β}
    {Q : σ → Except Failure β → Prop} {t : σ} (hok : ∀ s a, d s = .ok a → (f a).Obeys P Q t)
    (herr : ∀ fault : Control.Fault, Q t (.error fault.toError.toFailure)) :
    (decided d >>= f).Obeys P Q t := by
  intro s
  rw [on_bind, on_decided, Program.bind_pure_left]
  cases hd : d s with
  | ok a => exact hok s a hd s
  | error fault => exact herr fault

end FlowEngine.Exec
