import FlowEngine.Program.Effect

/-!
# Programs

A program is a result, or an effect together with the program that goes on with
its answer. Programs compose as a lawful monad.
-/
namespace FlowEngine

inductive Program (α : Type) : Type where
  | pure (a : α)
  | perform (e : Effect) (next : e.Answer → Program α)

namespace Program

def bind {α β : Type} (p : Program α) (f : α → Program β) : Program β :=
  match p with
  | pure a => f a
  | perform e next => perform e fun answer => (next answer).bind f

instance : Monad Program where
  pure := Program.pure
  bind := Program.bind

@[simp] theorem pure_def {α : Type} (a : α) : (Pure.pure a : Program α) = Program.pure a := rfl

@[simp] theorem bind_def {α β : Type} (p : Program α) (f : α → Program β) :
    (p >>= f) = p.bind f := rfl

@[simp] theorem bind_pure_left {α β : Type} (a : α) (f : α → Program β) :
    (Program.pure a).bind f = f a := rfl

@[simp] theorem bind_perform {α β : Type} (e : Effect) (next : e.Answer → Program α)
    (f : α → Program β) :
    (perform e next).bind f = perform e fun answer => (next answer).bind f := rfl

theorem bind_pure_right {α : Type} (p : Program α) : p.bind Program.pure = p := by
  induction p with
  | pure a => rfl
  | perform e next ih => simp only [bind_perform, ih]

theorem bind_assoc {α β γ : Type} (p : Program α) (f : α → Program β) (g : β → Program γ) :
    (p.bind f).bind g = p.bind fun a => (f a).bind g := by
  induction p with
  | pure a => rfl
  | perform e next ih => simp only [bind_perform, ih]

instance : LawfulMonad Program :=
  LawfulMonad.mk' Program bind_pure_right (fun _ _ => rfl) bind_assoc

def ask (e : Effect) : Program e.Answer := perform e Program.pure

end Program
end FlowEngine
