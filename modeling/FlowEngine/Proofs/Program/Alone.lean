import FlowEngine.Execution.Step
import Mathlib.Tactic.Choose

/-!
# Programs that run alone

A program runs alone when nothing is cancelled, the answer to a request depends on nothing but
the request, and the branches of a join run one after the other. A `Course` is the same for other
answers than those. What a program writes down and what it comes to is determined when its answers
are: `Twin` relates programs that differ only in the tokens and handles they use and in the runs they
write to, and such programs write the same and come to related results.
-/
namespace FlowEngine

def Effect.entries : Effect → List Entry
  | .note _ entry => [entry]
  | _ => []

def Request.Reads : Request → Prop
  | .call _ _ _ => True
  | .record request => request.op = .query

def Effect.Undisturbed (reply : Request → Outcome) : (e : Effect) → e.Answer → Prop
  | .isCancelled _, cancelled => cancelled = false
  | .request _ _ r, answer => r.Reads ∧ answer = .ok (reply r)
  | .sleep _ _, waited => waited = true
  | .closeRun run ending outputs, result => ∃ journal : Journal,
      result = (journal.finish ending).result run ending outputs ∧
        result.status = journal.finalStatus ending
  | .childToken _, _ | .note _ _, _ | .startSpan _ _, _ | .endSpan _ _ _, _ | .settle _ _, _ => True
  | _, _ => False

/-! ## Answers -/

/-- The part that a task takes in a run: it is at the head of the run, or does a branch of it. -/
inductive Role where
  | owner
  | branch

/-- Which answers effects may get. -/
abbrev Answers : Type := (e : Effect) → e.Answer → Prop

/-- Answers that are undisturbed where they can be. A branch handles no failures for its run. -/
structure Regular (reply : Request → Outcome) (U : Role → Answers) : Prop where
  expected {role : Role} {e : Effect} {a : e.Answer} : e.Undisturbed reply a →
    (role = .branch → ∀ f, .handled f ∉ e.entries) → U role e a
  undisturbed {role : Role} {e : Effect} {a b : e.Answer} : e.Undisturbed reply b → U role e a →
    e.Undisturbed reply a
  joins {role : Role} {run : Nat} {policy : JoinPolicy} {group : Token} {bs : List Branch}
    {a : Except Failure (List BranchOutcome)} : ¬ U role (.join run policy group bs) a

theorem Regular.of_undisturbed (reply : Request → Outcome) :
    Regular reply fun _ => Effect.Undisturbed reply :=
  ⟨fun h _ => h, fun _ h => h, fun h => h⟩

def StoreScript.Opens (script : StoreScript) : Except EngineError String → Prop
  | .ok _ => script.snapshotError = .none
  | .error e => ∃ text, script.snapshotError = .some text ∧ e = .store text

def StoreScript.obliges (refusal : Option String) : Except EngineError Unit :=
  match refusal with
  | .none => .ok ()
  | .some text => .error (.store text)

/-- The answers in a run whose steps fan out only into branches without transactions. Whoever is at
the head of the run also waits for slots and for other runs, and its transactions get what the
script of the store says. -/
def Effect.Expected (reply : Request → Outcome) (script : StoreScript) : Role → Answers
  | .owner, .beginTransaction _, begun => script.Opens begun
  | .owner, .releaseTransaction _ _, released => released = .ok ()
  | .owner, .discardSnapshot _, discarded => discarded = StoreScript.obliges script.discardError
  | .owner, .restoreSnapshot _, restored => restored = StoreScript.obliges script.restoreError
  | .owner, .acquireSlot, _ | .owner, .releaseSlot, _ | .owner, .openRun _ _, _
  | .owner, .awaitRun _, _ => True
  | .branch, .note _ (.handled _), _ => False
  | _, e, a => e.Undisturbed reply a

theorem Regular.of_expected (reply : Request → Outcome) (script : StoreScript) :
    Regular reply (Effect.Expected reply script) where
  expected {role e a} h hbranch := by
    cases role with
    | owner => cases e <;> first | exact h | exact h.elim
    | branch =>
        cases e with
        | note run entry =>
            cases entry with
            | handled f => exact absurd (List.mem_singleton_self _) (hbranch rfl f)
            | _ => trivial
        | _ => exact h
  undisturbed {role e a b} h ha := by
    cases role with
    | owner => cases e <;> first | exact ha | exact h.elim
    | branch => cases e <;> first | exact ha | trivial
  joins {role run policy group bs a} h := by cases role <;> exact h

namespace Program

inductive Alone (reply : Request → Outcome) : {α : Type} → Program α → List Entry → α → Prop where
  | pure {α : Type} (a : α) : Alone reply (pure a) [] a
  | deed {α : Type} {e : Effect} {next : e.Answer → Program α} {answer : e.Answer}
      {entries : List Entry} {a : α} (undisturbed : e.Undisturbed reply answer)
      (rest : Alone reply (next answer) entries a) :
      Alone reply (perform e next) (e.entries ++ entries) a
  | join {α : Type} {run : Nat} {group : Token} {bs : List Branch}
      {next : Except Failure (List BranchOutcome) → Program α}
      {courses : List (List Entry × Except Failure Json)} {entries : List Entry} {a : α}
      (length : courses.length = bs.length)
      (branches : ∀ (i : Nat) (b : Branch) (c : List Entry × Except Failure Json),
        bs[i]? = some b → courses[i]? = some c → Alone reply b.program c.1 c.2)
      (rest : Alone reply (next (.ok (courses.map fun c => .ofExcept c.2))) entries a) :
      Alone reply (perform (.join run .waitAll group bs) next) (courses.flatMap Prod.fst ++ entries) a

/-- Under some answers, a program writes these entries down, in its own part and in the branches that
it starts, and comes to a result. -/
inductive Course (U : Role → Answers) :
    Role → {α : Type} → Program α → List Entry → α → Prop where
  | pure {role : Role} {α : Type} (a : α) : Course U role (pure a) [] a
  | deed {role : Role} {α : Type} {e : Effect} {next : e.Answer → Program α} {answer : e.Answer}
      {entries : List Entry} {a : α} (expected : U role e answer)
      (rest : Course U role (next answer) entries a) :
      Course U role (perform e next) (e.entries ++ entries) a
  | join {role : Role} {α : Type} {run : Nat} {group : Token} {bs : List Branch}
      {next : Except Failure (List BranchOutcome) → Program α}
      {courses : List (List Entry × Except Failure Json)} {entries : List Entry} {a : α}
      (length : courses.length = bs.length)
      (branches : ∀ (i : Nat) (b : Branch) (c : List Entry × Except Failure Json),
        bs[i]? = some b → courses[i]? = some c → Course U .branch b.program c.1 c.2)
      (rest : Course U role (next (.ok (courses.map fun c => .ofExcept c.2))) entries a) :
      Course U role (perform (.join run .waitAll group bs) next)
        (courses.flatMap Prod.fst ++ entries) a

/-- Two programs write the same and come to related results, whichever of the answers they get. -/
inductive Twin (U : Role → Answers) :
    Role → {α β : Type} → (α → β → Prop) → Program α → Program β → Prop where
  | pure {role : Role} {α β : Type} {R : α → β → Prop} {a : α} {b : β} (related : R a b) :
      Twin U role R (pure a) (pure b)
  | deed {role : Role} {α β : Type} {R : α → β → Prop} {e e' : Effect}
      {next : e.Answer → Program α} {next' : e'.Answer → Program β} (entries : e.entries = e'.entries)
      (answers : ∃ a, U role e a) (answers' : ∃ a, U role e' a)
      (rest : ∀ a a', U role e a → U role e' a' → Twin U role R (next a) (next' a')) :
      Twin U role R (perform e next) (perform e' next')
  | join {role : Role} {α β : Type} {R : α → β → Prop} {run run' : Nat} {group group' : Token}
      {bs bs' : List Branch} {next : Except Failure (List BranchOutcome) → Program α}
      {next' : Except Failure (List BranchOutcome) → Program β} (length : bs.length = bs'.length)
      (branches : ∀ (i : Nat) (b b' : Branch), bs[i]? = some b → bs'[i]? = some b' →
        Twin U .branch Eq b.program b'.program)
      (rest : ∀ results : List (Except Failure Json), Twin U role R
        (next (.ok (results.map .ofExcept))) (next' (.ok (results.map .ofExcept)))) :
      Twin U role R (perform (.join run .waitAll group bs) next)
        (perform (.join run' .waitAll group' bs') next')

variable {reply : Request → Outcome} {U : Role → Answers} {role : Role} {α β γ δ : Type}

/-- A course of one program after another is a course of the first, and then one of the second. -/
theorem Course.of_bind {p : Program α} {f : α → Program β} {entries : List Entry} {b : β}
    (h : (p.bind f).Course U role entries b) : ∃ first a later, entries = first ++ later ∧
      p.Course U role first a ∧ (f a).Course U role later b := by
  induction p generalizing entries with
  | pure a => exact ⟨[], a, entries, rfl, .pure a, h⟩
  | perform e next ih =>
      cases h with
      | deed expected rest =>
          obtain ⟨first, a, later, rfl, hfirst, hlater⟩ := ih _ rest
          exact ⟨_, a, later, (List.append_assoc ..).symm, .deed expected hfirst, hlater⟩
      | join length branches rest =>
          obtain ⟨first, a, later, rfl, hfirst, hlater⟩ := ih _ rest
          exact ⟨_, a, later, (List.append_assoc ..).symm, .join length branches hfirst, hlater⟩

/-- What a program does alone is a course of it when all answers are undisturbed. -/
theorem Alone.course {p : Program α} {entries : List Entry} {a : α} (h : p.Alone reply entries a)
    (role : Role) : p.Course (fun _ => Effect.Undisturbed reply) role entries a := by
  induction h generalizing role with
  | pure a => exact .pure a
  | deed undisturbed _ ih => exact .deed undisturbed (ih role)
  | join length _ _ ihb ih => exact .join length (fun i b c hb hc => ihb i b c hb hc .branch) (ih role)

namespace Twin

theorem bind {Q : α → β → Prop} {R : γ → δ → Prop} {p : Program α} {p' : Program β}
    {f : α → Program γ} {f' : β → Program δ} (hp : Twin U role Q p p')
    (hf : ∀ a a', Q a a' → Twin U role R (f a) (f' a')) :
    Twin U role R (p.bind f) (p'.bind f') := by
  induction hp with
  | pure related => exact hf _ _ related
  | deed entries answers answers' rest ih =>
      exact .deed entries answers answers' fun a a' ha ha' => ih a a' ha ha' hf
  | join length branches rest _ ih => exact .join length branches fun results => ih results hf

theorem mono {Q R : α → β → Prop} {p : Program α} {p' : Program β} (h : Twin U role Q p p')
    (hQR : ∀ a a', Q a a' → R a a') : Twin U role R p p' := by
  rw [← p.bind_pure_right, ← p'.bind_pure_right]
  exact h.bind fun a a' hQ => .pure (hQR a a' hQ)

/-- What twins write and come to does not depend on how they are answered. -/
theorem unique (hU : Regular reply U) {R : α → β → Prop} {p : Program α} {p' : Program β}
    (h : Twin U role R p p') {entries entries' : List Entry} {a : α} {b : β}
    (ha : p.Course U role entries a) (hb : p'.Course U role entries' b) :
    entries = entries' ∧ R a b := by
  induction h generalizing entries entries' with
  | pure related =>
      cases ha
      cases hb
      exact ⟨rfl, related⟩
  | deed written answers answers' rest ih =>
      cases ha with
      | join => exact (hU.joins answers.choose_spec).elim
      | deed expected hrest =>
          cases hb with
          | join => exact (hU.joins answers'.choose_spec).elim
          | deed expected' hrest' =>
              obtain ⟨rfl, hR⟩ := ih _ _ expected expected' hrest hrest'
              exact ⟨by rw [written], hR⟩
  | join length branches rest ihb ih =>
      cases ha with
      | deed expected => exact (hU.joins expected).elim
      | @join _ _ _ _ _ _ courses _ _ hlength hbranches hrest =>
          cases hb with
          | deed expected => exact (hU.joins expected).elim
          | @join _ _ _ _ _ _ courses' _ _ hlength' hbranches' hrest' =>
              obtain rfl : courses = courses' := by
                refine List.ext_getElem (by omega) fun i hi hi' => ?_
                obtain ⟨h₁, h₂⟩ := ihb i _ _ (List.getElem?_eq_getElem (by omega))
                  (List.getElem?_eq_getElem (by omega))
                  (hbranches i _ _ (List.getElem?_eq_getElem (by omega)) (List.getElem?_eq_getElem hi))
                  (hbranches' i _ _ (List.getElem?_eq_getElem (by omega))
                    (List.getElem?_eq_getElem hi'))
                exact Prod.ext h₁ h₂
              have hmap : (courses.map fun c => BranchOutcome.ofExcept c.2) =
                  (courses.map Prod.snd).map .ofExcept := by
                rw [List.map_map]
                rfl
              rw [hmap] at hrest hrest'
              obtain ⟨rfl, hR⟩ := ih _ hrest hrest'
              exact ⟨rfl, hR⟩

end Twin

def Steady (U : Role → Answers) (role : Role) (p : Program α) : Prop :=
  ∃ R : α → α → Prop, Twin U role R p p

namespace Steady

variable {e : Effect} {next : e.Answer → Program α}

/-- A steady program performs only effects that have an answer of those, and joins that wait for all
branches. -/
theorem quiet (h : Steady U role (perform e next)) :
    (∃ a, U role e a) ∨ ∃ run group bs, e = .join run .waitAll group bs := by
  obtain ⟨R, h⟩ := h
  cases h with
  | deed _ answers => exact Or.inl answers
  | join => exact Or.inr ⟨_, _, _, rfl⟩

section

variable (hU : Regular reply U)
include hU

theorem next_of_expected {a : e.Answer} (h : Steady U role (perform e next)) (ha : U role e a) :
    Steady U role (next a) := by
  obtain ⟨R, h⟩ := h
  cases h with
  | deed _ _ _ rest => exact ⟨R, rest a a ha ha⟩
  | join => exact (hU.joins ha).elim

variable {run : Nat} {policy : JoinPolicy} {group : Token} {bs : List Branch}
  {joined : Except Failure (List BranchOutcome) → Program α}

theorem next_of_join (h : Steady U role (perform (.join run policy group bs) joined))
    (results : List (Except Failure Json)) :
    Steady U role (joined (.ok (results.map .ofExcept))) := by
  obtain ⟨R, h⟩ := h
  cases h with
  | deed _ answers => exact (hU.joins answers.choose_spec).elim
  | join _ _ rest => exact ⟨R, rest results⟩

theorem branch (h : Steady U role (perform (.join run policy group bs) joined)) {b : Branch}
    (hb : b ∈ bs) : Twin U .branch Eq b.program b.program := by
  obtain ⟨R, h⟩ := h
  cases h with
  | deed _ answers => exact (hU.joins answers.choose_spec).elim
  | join _ branches =>
      obtain ⟨i, hi⟩ := List.getElem?_of_mem hb
      exact branches i b b hi hi

end

end Steady

end Program
end FlowEngine
