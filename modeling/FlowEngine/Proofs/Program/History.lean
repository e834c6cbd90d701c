import FlowEngine.Program.Basic

/-!
# Histories of programs

A history is what a program did so far: the effects it performed with the answers
it got. A program and a history determine the program that is left, and a history
of a composed program splits at the point where its first part ended.
-/
namespace FlowEngine

/-- An effect with the answer to it. -/
structure Deed where
  effect : Effect
  answer : effect.Answer

namespace Program

variable {α β : Type}

/-- What is left of a program that got these answers. -/
inductive Follows : Program α → List Deed → Program α → Prop where
  | start (p : Program α) : Follows p [] p
  | deed {e : Effect} {next : e.Answer → Program α} {a : e.Answer} {rest : List Deed}
      {q : Program α} (tail : Follows (next a) rest q) :
      Follows (perform e next) (⟨e, a⟩ :: rest) q

namespace Follows

@[simp] theorem nil_iff {p q : Program α} : p.Follows [] q ↔ q = p := by
  constructor
  · intro h
    cases h
    rfl
  · rintro rfl
    exact .start _

@[simp] theorem pure_iff {a : α} {h : List Deed} {q : Program α} :
    (pure a).Follows h q ↔ h = [] ∧ q = pure a := by
  constructor
  · intro hf
    cases hf
    exact ⟨rfl, rfl⟩
  · rintro ⟨rfl, rfl⟩
    exact .start _

theorem perform_cons_iff {e : Effect} {next : e.Answer → Program α} {d : Deed} {h : List Deed}
    {q : Program α} :
    (perform e next).Follows (d :: h) q ↔ ∃ a, d = ⟨e, a⟩ ∧ (next a).Follows h q := by
  constructor
  · intro hf
    cases hf with
    | deed tail => exact ⟨_, rfl, tail⟩
  · rintro ⟨a, rfl, tail⟩
    exact .deed tail

theorem append_iff {p q : Program α} {h k : List Deed} :
    p.Follows (h ++ k) q ↔ ∃ m, p.Follows h m ∧ m.Follows k q := by
  induction h generalizing p with
  | nil => simp
  | cons d h ih =>
      cases p with
      | pure a => simp
      | perform e next =>
          simp only [List.cons_append, perform_cons_iff, ih]
          constructor
          · rintro ⟨a, rfl, m, h₁, h₂⟩
            exact ⟨m, ⟨a, rfl, h₁⟩, h₂⟩
          · rintro ⟨m, ⟨a, rfl, h₁⟩, h₂⟩
            exact ⟨a, rfl, m, h₁, h₂⟩

theorem append {p m q : Program α} {h k : List Deed} (h₁ : p.Follows h m) (h₂ : m.Follows k q) :
    p.Follows (h ++ k) q :=
  append_iff.mpr ⟨m, h₁, h₂⟩

/-- The program that is left is determined by the history. -/
theorem unique {p q r : Program α} {h : List Deed} (h₁ : p.Follows h q) (h₂ : p.Follows h r) :
    q = r := by
  induction h₁ with
  | start p => exact (nil_iff.mp h₂).symm
  | deed tail ih =>
      cases h₂ with
      | deed tail' => exact ih tail'

theorem bind {p q : Program α} {h : List Deed} (hf : p.Follows h q) (k : α → Program β) :
    (p.bind k).Follows h (q.bind k) := by
  induction hf with
  | start p => exact .start _
  | deed tail ih => exact .deed ih

/-- A history of a composed program stops inside the first part, or goes on after it. -/
theorem bind_cases {p : Program α} {k : α → Program β} {h : List Deed} {q : Program β}
    (hf : (p.bind k).Follows h q) :
    (∃ p', p.Follows h p' ∧ q = p'.bind k) ∨
      ∃ h₁ h₂ a, h = h₁ ++ h₂ ∧ p.Follows h₁ (pure a) ∧ (k a).Follows h₂ q := by
  induction h generalizing p with
  | nil =>
      rw [nil_iff] at hf
      exact Or.inl ⟨p, .start p, hf⟩
  | cons d h ih =>
      cases p with
      | pure a => exact Or.inr ⟨[], d :: h, a, rfl, .start _, hf⟩
      | perform e next =>
          rw [bind_perform, perform_cons_iff] at hf
          obtain ⟨a, rfl, tail⟩ := hf
          rcases ih tail with ⟨p', hp, rfl⟩ | ⟨h₁, h₂, b, rfl, hp, hk⟩
          · exact Or.inl ⟨p', .deed hp, rfl⟩
          · exact Or.inr ⟨⟨e, a⟩ :: h₁, h₂, b, rfl, .deed hp, hk⟩

/-- A history that ends a composed program ends its first part. -/
theorem bind_pure {p : Program α} {k : α → Program β} {h : List Deed} {b : β}
    (hf : (p.bind k).Follows h (pure b)) :
    ∃ h₁ h₂ a, h = h₁ ++ h₂ ∧ p.Follows h₁ (pure a) ∧ (k a).Follows h₂ (pure b) := by
  rcases bind_cases hf with ⟨p', hp, hq⟩ | hk
  · cases p' with
    | pure a => exact ⟨h, [], a, by simp, hp, by rw [nil_iff]; exact hq⟩
    | perform e next => cases hq
  · exact hk

theorem cons_of_perform {e : Effect} {next : e.Answer → Program α} {h : List Deed}
    {q : Program α} (hf : (perform e next).Follows h q) :
    h = [] ∧ q = perform e next ∨ ∃ a rest, h = ⟨e, a⟩ :: rest ∧ (next a).Follows rest q := by
  cases hf with
  | start => exact Or.inl ⟨rfl, rfl⟩
  | deed tail => exact Or.inr ⟨_, _, rfl, tail⟩

end Follows

/-- A history takes a program to its end, and may go on after that. -/
def Yields (p : Program α) (h : List Deed) (a : α) : Prop :=
  ∃ d more, h = d ++ more ∧ p.Follows d (pure a)

theorem Follows.end_unique {p : Program α} {d d' more more' : List Deed} {a b : α}
    (hd : p.Follows d (pure a)) (hd' : p.Follows d' (pure b)) (hsplit : d ++ more = d' ++ more') :
    d = d' ∧ a = b := by
  induction d generalizing p d' with
  | nil =>
      rw [nil_iff] at hd
      subst hd
      obtain ⟨rfl, h⟩ := pure_iff.mp hd'
      exact ⟨rfl, (Program.pure.inj h).symm⟩
  | cons x d ih =>
      cases p with
      | pure c => exact absurd (pure_iff.mp hd).1 (by simp)
      | perform e next =>
          obtain ⟨answer, rfl, htail⟩ := perform_cons_iff.mp hd
          cases d' with
          | nil =>
              rw [nil_iff] at hd'
              cases hd'
          | cons y d' =>
              obtain ⟨answer', rfl, htail'⟩ := perform_cons_iff.mp hd'
              simp only [List.cons_append, List.cons.injEq, Deed.mk.injEq, heq_eq_eq,
                true_and] at hsplit
              obtain ⟨rfl, hsplit⟩ := hsplit
              obtain ⟨rfl, rfl⟩ := ih htail htail' hsplit
              exact ⟨rfl, rfl⟩

theorem Yields.unique {p : Program α} {h : List Deed} {a b : α} (ha : p.Yields h a)
    (hb : p.Yields h b) : a = b := by
  obtain ⟨d, more, rfl, hd⟩ := ha
  obtain ⟨d', more', hsplit, hd'⟩ := hb
  exact (hd.end_unique hd' hsplit).2

theorem Yields.not_follows {p : Program α} {h : List Deed} {a : α} (ha : p.Yields h a)
    {e : Effect} {next : e.Answer → Program α} : ¬ p.Follows h (perform e next) := by
  obtain ⟨d, more, rfl, hd⟩ := ha
  intro hf
  obtain ⟨q, hq, hmore⟩ := Follows.append_iff.mp hf
  rw [hq.unique hd] at hmore
  cases (Follows.pure_iff.mp hmore).2

def StaysIn (D : (e : Effect) → e.Answer → Prop) (p p' : Program α) : Prop :=
  ∀ h q, p.Follows h q → (∀ d ∈ h, D d.effect d.answer) →
    ∃ q', p'.Follows h q' ∧ ∀ a, q = pure a → q' = pure a

namespace StaysIn

variable {D : (e : Effect) → e.Answer → Prop}

theorem refl (p : Program α) : p.StaysIn D p := fun _ q hf _ => ⟨q, hf, fun _ hq => hq⟩

theorem perform {e : Effect} {next next' : e.Answer → Program α}
    (h : ∀ a, D e a → (next a).StaysIn D (next' a)) :
    (Program.perform e next).StaysIn D (Program.perform e next') := by
  intro deeds q hf hD
  rcases hf.cons_of_perform with ⟨rfl, rfl⟩ | ⟨a, rest, rfl, htail⟩
  · exact ⟨_, .start _, nofun⟩
  · obtain ⟨r, hr, hpure⟩ := h a (hD _ List.mem_cons_self) rest q htail
      fun d hd => hD d (List.mem_cons_of_mem _ hd)
    exact ⟨r, .deed hr, hpure⟩

theorem bind_left {p p' : Program α} (h : p.StaysIn D p') (k : α → Program β) :
    (p.bind k).StaysIn D (p'.bind k) := by
  intro deeds q hf hD
  rcases hf.bind_cases with ⟨r, hr, rfl⟩ | ⟨d, rest, a, rfl, hd, hrest⟩
  · obtain ⟨r', hr', hpure⟩ := h deeds r hr hD
    refine ⟨_, hr'.bind k, fun b hb => ?_⟩
    cases r with
    | pure a => rwa [hpure a rfl]
    | perform e next => cases hb
  · obtain ⟨r', hr', hpure⟩ := h d _ hd fun x hx => hD x (List.mem_append_left rest hx)
    rw [hpure a rfl] at hr'
    exact ⟨q, (hr'.bind k).append hrest, fun _ hb => hb⟩

theorem bind {p : Program α} {k k' : α → Program β} (h : ∀ a, (k a).StaysIn D (k' a)) :
    (p.bind k).StaysIn D (p.bind k') := by
  intro deeds q hf hD
  have hended {d rest : List Deed} {a : α} (hsplit : deeds = d ++ rest)
      (hd : p.Follows d (Program.pure a)) (hrest : (k a).Follows rest q) :
      ∃ q', (p.bind k').Follows deeds q' ∧ ∀ b, q = Program.pure b → q' = Program.pure b := by
    subst hsplit
    obtain ⟨r, hr, hpure⟩ := h a rest q hrest fun x hx => hD x (List.mem_append_right d hx)
    exact ⟨r, (hd.bind k').append hr, hpure⟩
  rcases hf.bind_cases with ⟨p', hp', rfl⟩ | ⟨d, rest, a, hsplit, hd, hrest⟩
  · cases p' with
    | pure a => exact hended (List.append_nil _).symm hp' (.start _)
    | perform e next => exact ⟨_, hp'.bind k', nofun⟩
  · exact hended hsplit hd hrest

end StaysIn

end Program
end FlowEngine

/-!
## What programs come to

A property of effects, each with what goes on after it, holds throughout a program
when it holds of every effect that the program can come to, whatever the answers.
-/
namespace FlowEngine.Program

abbrev Trait : Type 1 := {α : Type} → (e : Effect) → (e.Answer → Program α) → Prop

def Trait.Stable (Q : Trait) : Prop :=
  ∀ {α β : Type} (e : Effect) (next : e.Answer → Program α) (f : α → Program β), Q e next →
    Q e fun a => (next a).bind f

variable {α β : Type}

def Throughout (Q : Trait) : Program α → Prop
  | pure _ => True
  | perform e next => Q e next ∧ ∀ a, (next a).Throughout Q

@[simp] theorem throughout_pure {Q : Trait} {a : α} : (pure a).Throughout Q := trivial

theorem throughout_perform {Q : Trait} {e : Effect} {next : e.Answer → Program α} :
    (perform e next).Throughout Q ↔ Q e next ∧ ∀ a, (next a).Throughout Q := Iff.rfl

theorem Throughout.bind {Q : Trait} (hQ : Q.Stable) {p : Program α} {f : α → Program β}
    (hp : p.Throughout Q) (hf : ∀ a, (f a).Throughout Q) : (p.bind f).Throughout Q := by
  induction p with
  | pure a => exact hf a
  | perform e next ih =>
      rw [bind_perform, throughout_perform]
      exact ⟨hQ e next f hp.1, fun a => ih a (hp.2 a)⟩

theorem Throughout.follow {Q : Trait} {p q : Program α} {h : List Deed} (hp : p.Throughout Q)
    (hf : p.Follows h q) : q.Throughout Q := by
  induction hf with
  | start p => exact hp
  | deed tail ih => exact ih (hp.2 _)

end FlowEngine.Program

/-!
## What programs end with

`Program.Ends` says of a program what its results are like, whatever the answers are. `Lockstep` says of
two programs that they perform the same effects, and how their results are related.
-/
namespace FlowEngine.Program

variable {α β γ δ : Type}

/-- Whatever the answers are, a program ends only with results that satisfy `Q`. -/
def Ends (Q : α → Prop) : Program α → Prop
  | pure a => Q a
  | perform _ next => ∀ answer, (next answer).Ends Q

theorem Ends.trivial (p : Program α) : p.Ends fun _ => True := by
  induction p with
  | pure a => exact True.intro
  | perform e next ih => exact ih

theorem Ends.mono {Q R : α → Prop} {p : Program α} (h : p.Ends Q) (hQR : ∀ a, Q a → R a) :
    p.Ends R := by
  induction p with
  | pure a => exact hQR a h
  | perform e next ih => exact fun answer => ih answer (h answer)

theorem Ends.bind {Q : α → Prop} {R : β → Prop} {p : Program α} {f : α → Program β}
    (h : p.Ends Q) (hf : ∀ a, Q a → (f a).Ends R) : (p.bind f).Ends R := by
  induction p with
  | pure a => exact hf a h
  | perform e next ih => exact fun answer => ih answer (h answer)

theorem Ends.of_follows {Q : α → Prop} {p q : Program α} {h : List Deed} (hp : p.Ends Q)
    (hf : p.Follows h q) : q.Ends Q := by
  induction hf with
  | start p => exact hp
  | deed tail ih => exact ih (hp _)

inductive Lockstep (R : α → β → Prop) : Program α → Program β → Prop where
  | pure {a : α} {b : β} (related : R a b) : Lockstep R (pure a) (pure b)
  | perform {e : Effect} {next : e.Answer → Program α} {next' : e.Answer → Program β}
      (rest : ∀ a, Lockstep R (next a) (next' a)) : Lockstep R (perform e next) (perform e next')

namespace Lockstep

variable {R : α → β → Prop} {S : γ → δ → Prop} {p : Program α} {q : Program β}

theorem mono {R' : α → β → Prop} (h : Lockstep R p q) (hR : ∀ a b, R a b → R' a b) :
    Lockstep R' p q := by
  induction h with
  | pure related => exact .pure (hR _ _ related)
  | perform rest ih => exact .perform ih

theorem bind {f : α → Program γ} {g : β → Program δ} (h : Lockstep R p q)
    (hf : ∀ a b, R a b → Lockstep S (f a) (g b)) : Lockstep S (p.bind f) (q.bind g) := by
  induction h with
  | pure related => exact hf _ _ related
  | perform rest ih => exact .perform ih

/-- The same program, with something added to its result. -/
theorem of_ends {Q : β → Prop} {f : β → α} (h : q.Ends Q) (hR : ∀ b, Q b → R (f b) b) :
    Lockstep R (q.bind fun b => .pure (f b)) q := by
  induction q with
  | pure b => exact .pure (hR b h)
  | perform e next ih => exact .perform fun a => ih a (h a)

theorem refl (p : Program α) : Lockstep Eq p p := by
  induction p with
  | pure a => exact .pure rfl
  | perform e next ih => exact .perform ih

/-- What the one program comes to, the other one comes to with the same answers. -/
theorem exists_of_follows (h : Lockstep R p q) {d : List Deed} {b : β}
    (hq : q.Follows d (.pure b)) : ∃ a, p.Follows d (.pure a) ∧ R a b := by
  induction h generalizing d with
  | pure related =>
      obtain ⟨rfl, hb⟩ := Follows.pure_iff.mp hq
      cases hb
      exact ⟨_, .start _, related⟩
  | perform rest ih =>
      obtain ⟨-, hpure⟩ | ⟨answer, d, rfl, htail⟩ := hq.cons_of_perform
      · cases hpure
      · obtain ⟨a, ha, hR⟩ := ih answer htail
        exact ⟨a, .deed ha, hR⟩

theorem ends (h : Lockstep R p q) : p.Ends fun a => ∃ b, R a b := by
  induction h with
  | pure related => exact ⟨_, related⟩
  | perform rest ih => exact ih

end Lockstep
end FlowEngine.Program

/-!
## Protocols

A protocol is an automaton over effects. In each of its states it allows some
effects, and the answer to an effect moves it on; an answer that admits no move
never comes. A program obeys a protocol when it only performs allowed effects,
whatever the answers, and reaches its end in states that satisfy a postcondition.
-/
namespace FlowEngine

structure Protocol (σ : Type) where
  allows : σ → Effect → Prop
  moves : σ → (e : Effect) → e.Answer → σ → Prop

namespace Protocol

variable {σ : Type} (P : Protocol σ)

inductive Path : σ → List Deed → σ → Prop where
  | start (s : σ) : Path s [] s
  | deed {s t u : σ} {e : Effect} {a : e.Answer} {rest : List Deed}
      (move : P.moves s e a t) (tail : Path t rest u) : Path s (⟨e, a⟩ :: rest) u

variable {P}

namespace Path

@[simp] theorem nil_iff {s t : σ} : P.Path s [] t ↔ t = s := by
  constructor
  · intro h
    cases h
    rfl
  · rintro rfl
    exact .start _

theorem cons_iff {s u : σ} {d : Deed} {h : List Deed} :
    P.Path s (d :: h) u ↔ ∃ t, P.moves s d.effect d.answer t ∧ P.Path t h u := by
  constructor
  · intro hp
    cases hp with
    | deed move tail => exact ⟨_, move, tail⟩
  · rintro ⟨t, move, tail⟩
    exact .deed move tail

theorem append_iff {s u : σ} {h k : List Deed} :
    P.Path s (h ++ k) u ↔ ∃ t, P.Path s h t ∧ P.Path t k u := by
  induction h generalizing s with
  | nil => simp
  | cons d h ih =>
      simp only [List.cons_append, cons_iff, ih]
      constructor
      · rintro ⟨t, hm, m, h₁, h₂⟩
        exact ⟨m, ⟨t, hm, h₁⟩, h₂⟩
      · rintro ⟨m, ⟨t, hm, h₁⟩, h₂⟩
        exact ⟨t, hm, m, h₁, h₂⟩

theorem append {s t u : σ} {h k : List Deed} (h₁ : P.Path s h t) (h₂ : P.Path t k u) :
    P.Path s (h ++ k) u :=
  append_iff.mpr ⟨t, h₁, h₂⟩

end Path
end Protocol

namespace Program

variable {σ α β : Type} {P : Protocol σ}

/-- From a state of the protocol, a program performs allowed effects only and ends
in a state and with a result that satisfy `Q`. -/
def Obeys (P : Protocol σ) (Q : σ → α → Prop) : Program α → σ → Prop
  | pure a, s => Q s a
  | perform e next, s => P.allows s e ∧ ∀ a t, P.moves s e a t → (next a).Obeys P Q t

@[simp] theorem obeys_pure {Q : σ → α → Prop} {a : α} {s : σ} :
    (pure a).Obeys P Q s ↔ Q s a := Iff.rfl

@[simp] theorem obeys_perform {Q : σ → α → Prop} {e : Effect} {next : e.Answer → Program α}
    {s : σ} : (perform e next).Obeys P Q s ↔
      P.allows s e ∧ ∀ a t, P.moves s e a t → (next a).Obeys P Q t := Iff.rfl

theorem Obeys.mono {Q R : σ → α → Prop} {p : Program α} {s : σ} (h : p.Obeys P Q s)
    (hQR : ∀ t a, Q t a → R t a) : p.Obeys P R s := by
  induction p generalizing s with
  | pure a => exact hQR s a h
  | perform e next ih => exact ⟨h.1, fun a t hm => ih a (h.2 a t hm)⟩

theorem obeys_bind {Q : σ → β → Prop} {p : Program α} {f : α → Program β} {s : σ} :
    (p.bind f).Obeys P Q s ↔ p.Obeys P (fun t a => (f a).Obeys P Q t) s := by
  induction p generalizing s with
  | pure a => rfl
  | perform e next ih => simp only [bind_perform, obeys_perform, ih]

/-- What is left of an obedient program obeys from wherever its history leads. -/
theorem Obeys.follow {Q : σ → α → Prop} {p q : Program α} {h : List Deed} {s t : σ}
    (ho : p.Obeys P Q s) (hf : p.Follows h q) (hp : P.Path s h t) : q.Obeys P Q t := by
  induction hf generalizing s with
  | start p =>
      rw [Protocol.Path.nil_iff] at hp
      exact hp ▸ ho
  | deed tail ih =>
      obtain ⟨u, hm, hp⟩ := Protocol.Path.cons_iff.mp hp
      exact ih (ho.2 _ u hm) hp

end Program
end FlowEngine
