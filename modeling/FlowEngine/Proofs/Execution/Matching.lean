import FlowEngine.Proofs.Scope.Untouched

/-!
# Matches

A match runs the body of the first arm that accepts its subject. What an arm accepts is said here
without the search for it, and so is what a value has to look like to be the envelope of an outcome.
-/
namespace FlowEngine

open Exec Execution

/-! ## Envelopes -/

inductive Json.Envelops : Json → Unwrapped → Prop where
  | value {fields : List (String × Json)} {v : Json} (ok : Fields.get? "ok" fields = some (.bool true))
      (value : Fields.get? "value" fields = some v) : Envelops (.obj fields) (.value v)
  | error {fields : List (String × Json)} {e : Json} (ok : Fields.get? "ok" fields = some (.bool false))
      (error : Fields.get? "error" fields = some e) : Envelops (.obj fields) (.error e)

def Json.ResultLike (v : Json) : Prop := ∃ u, v.Envelops u

theorem Json.unwrapEnvelope?_eq_some {v : Json} {u : Unwrapped} :
    v.unwrapEnvelope? = some u ↔ v.Envelops u := by
  constructor
  · intro h
    obtain ⟨field, hfield, h⟩ := Option.bind_eq_some_iff.mp h
    obtain ⟨ok, hok, h⟩ := Option.bind_eq_some_iff.mp h
    cases v with
    | obj fields =>
        cases field with
        | bool b =>
            obtain rfl : b = ok := Option.some.inj hok
            cases b with
            | true =>
                obtain ⟨w, hw, heq⟩ := Option.bind_eq_some_iff.mp h
                cases heq
                exact .value hfield hw
            | false =>
                obtain ⟨w, hw, heq⟩ := Option.bind_eq_some_iff.mp h
                cases heq
                exact .error hfield hw
        | _ => cases hok
    | _ => cases hfield
  · intro h
    cases h with
    | value ok value => simp [unwrapEnvelope?, field?, asBool?, ok, value]
    | error ok error => simp [unwrapEnvelope?, field?, asBool?, ok, error]

theorem Json.Envelops.unique {v : Json} {u w : Unwrapped} (hu : v.Envelops u) (hw : v.Envelops w) :
    u = w :=
  Option.some.inj ((unwrapEnvelope?_eq_some.mpr hu).symm.trans (unwrapEnvelope?_eq_some.mpr hw))

/-! ## Arms -/

inductive Pattern.Accepts (subject : Json) : Pattern → Option Control.Binding → Prop where
  | literal {value : Json} (equal : subject.valueEq value = true) :
      Accepts subject (.literal value) none
  | ok {bind : Option String} {v : Json} (holds : subject.Envelops (.value v)) :
      Accepts subject (.ok bind) (bind.map fun name => (name, v))
  | err {bind : Option String} {e : Json} (holds : subject.Envelops (.error e)) :
      Accepts subject (.err bind) (bind.map fun name => (name, e))

def NoneAccepts {α : Type} (subject : Json) (arms : List (Pattern × α)) : Prop :=
  ∀ arm ∈ arms, ∀ binding, ¬ arm.1.Accepts subject binding

namespace Control

variable {α : Type} {subject : Json} {pattern : Pattern} {arms : List (Pattern × α)}

theorem accepts?_eq_some {binding : Option Binding} :
    Pattern.accepts? subject pattern = some binding ↔ pattern.Accepts subject binding := by
  constructor
  · intro h
    unfold Pattern.accepts? at h
    split at h
    · split at h
      · rename_i equal
        cases h
        exact .literal equal
      · cases h
    · split at h
      · rename_i holds
        cases h
        exact .ok (Json.unwrapEnvelope?_eq_some.mp holds)
      · cases h
    · split at h
      · rename_i holds
        cases h
        exact .err (Json.unwrapEnvelope?_eq_some.mp holds)
      · cases h
  · intro h
    cases h with
    | literal equal => exact if_pos equal
    | ok holds => simp [Pattern.accepts?, Json.unwrapEnvelope?_eq_some.mpr holds]
    | err holds => simp [Pattern.accepts?, Json.unwrapEnvelope?_eq_some.mpr holds]

theorem accepts?_eq_none :
    Pattern.accepts? subject pattern = none ↔ ∀ binding, ¬ pattern.Accepts subject binding := by
  simp only [← accepts?_eq_some, Option.eq_none_iff_forall_ne_some]

/-- The arms before the first one that accepts a value do not matter. -/
theorem selectArm_append {before : List (Pattern × α)} (h : NoneAccepts subject before)
    (otherwise : Option α) :
    selectArm subject (before ++ arms) otherwise = selectArm subject arms otherwise := by
  induction before with
  | nil => rfl
  | cons arm rest ih =>
      obtain ⟨pattern, body⟩ := arm
      have hnone := accepts?_eq_none.mpr (h _ List.mem_cons_self)
      rw [List.cons_append, selectArm, hnone]
      exact ih fun arm harm => h arm (List.mem_cons_of_mem _ harm)

theorem selectArm_of_accepts {before after : List (Pattern × α)} {body : α} {otherwise : Option α}
    {binding : Option Binding} (h : NoneAccepts subject before)
    (accepts : pattern.Accepts subject binding) :
    selectArm subject (before ++ (pattern, body) :: after) otherwise = .ok (some (body, binding)) := by
  rw [selectArm_append h, selectArm, accepts?_eq_some.mpr accepts]

/-- In a list of arms that do not all refuse a value there is a first one that accepts it. -/
theorem exists_first (h : ¬ NoneAccepts subject arms) : ∃ before pattern body after binding,
    arms = before ++ (pattern, body) :: after ∧ NoneAccepts subject before ∧
      pattern.Accepts subject binding := by
  induction arms with
  | nil => exact absurd (fun _ hm => nomatch hm) h
  | cons arm rest ih =>
      obtain ⟨pattern, body⟩ := arm
      by_cases hfirst : ∃ binding, pattern.Accepts subject binding
      · obtain ⟨binding, accepts⟩ := hfirst
        exact ⟨[], pattern, body, rest, binding, rfl, fun _ hm => (nomatch hm), accepts⟩
      · have hrefuses : ∀ binding, ¬ pattern.Accepts subject binding := not_exists.mp hfirst
        have hrest : ¬ NoneAccepts subject rest := by
          intro hnone
          refine h fun arm harm => ?_
          rcases List.mem_cons.mp harm with rfl | harm
          · exact hrefuses
          · exact hnone arm harm
        obtain ⟨before, pattern', body', after, binding, rfl, hnone, accepts⟩ := ih hrest
        refine ⟨(pattern, body) :: before, pattern', body', after, binding, rfl, ?_, accepts⟩
        intro arm harm
        rcases List.mem_cons.mp harm with rfl | harm
        · exact hrefuses
        · exact hnone arm harm

theorem isSome_unwrapEnvelope? : subject.unwrapEnvelope?.isSome = true ↔ subject.ResultLike := by
  simp only [Option.isSome_iff_exists, Json.unwrapEnvelope?_eq_some, Json.ResultLike]

theorem selectArm_of_none (h : NoneAccepts subject arms) (otherwise : Option α) :
    selectArm subject arms otherwise = selectArm subject [] otherwise := by
  rw [← List.append_nil arms]
  exact selectArm_append h otherwise

end Control

/-! ## Steps -/

theorem Execution.armPrograms_append (before after : List (Pattern × List Step)) (ctx : Context) :
    armPrograms (before ++ after) ctx = armPrograms before ctx ++ armPrograms after ctx := by
  induction before with
  | nil => rw [armPrograms, List.nil_append, List.nil_append]
  | cons arm rest ih =>
      obtain ⟨pattern, body⟩ := arm
      rw [List.cons_append, armPrograms, ih, armPrograms, List.cons_append]

/-- What becomes of a match: the first arm that accepts the subject decides, then `otherwise` does,
and after that only a subject that looks like the result of a call is passed over. -/
structure Matched (subject : Json) (arms : List (Pattern × List Step))
    (otherwise : Option (List Step)) (ctx : Context) (s : Scope)
    (p : Program (Except Failure Reached × Scope)) : Prop where
  /-- The body of the arm runs in a new frame, which binds what the arm binds and nothing else. -/
  first {before after : List (Pattern × List Step)} {pattern : Pattern} {body : List Step}
    {binding : Option Control.Binding} : arms = before ++ (pattern, body) :: after →
    NoneAccepts subject before → pattern.Accepts subject binding →
    p = (Reached.value <$> inFrame (Scope.under ⟨.step, binding.toList⟩)
      (runSequence body ctx .null)).on s
  fallback {body : List Step} : NoneAccepts subject arms → otherwise = some body →
    p = (Reached.value <$> inFrame (Scope.under ⟨.step, []⟩) (runSequence body ctx .null)).on s
  passes : NoneAccepts subject arms → otherwise = none → subject.ResultLike →
    p = .pure (.ok (.value .null), s)
  /-- The match fails by itself, and not in a body, exactly when nothing is there for the subject. -/
  exhausted : (∃ f s', p = .pure (.error f, s')) ↔
    NoneAccepts subject arms ∧ otherwise = none ∧ ¬ subject.ResultLike
  error {f : Failure} {s' : Scope} : p = .pure (.error f, s') →
    f = (EngineError.matchExhausted s!"No clause matches {subject.render}").toFailure ∧ s' = s

section

variable {e : Expr} {subject : Json} {arms : List (Pattern × List Step)}
  {otherwise : Option (List Step)} {ctx : Context} {id : String} {s : Scope}

/-- A body fails only after its first step has looked whether it is cancelled. -/
theorem Execution.inFrame_ne_error (enter : Scope → Scope) (body : List Step) (ctx : Context)
    (s s' : Scope) (f : Failure) :
    (Reached.value <$> inFrame enter (runSequence body ctx .null)).on s ≠ .pure (.error f, s') := by
  cases body with
  | nil => exact nofun
  | cons step rest =>
      rw [runSequence, Step.run_eq, on_map, on_inFrame, on_bind, node_on]
      exact nofun

theorem Action.choose_on (heval : Control.evaluate e s = .ok subject) :
    ((Action.choose e arms otherwise).run id ctx).on s =
      match Control.selectArm subject (armPrograms arms ctx) (optionProgram otherwise ctx) with
      | .ok arm => (chosenArm arm).on s
      | .error fault => .pure (.error fault.toError.toFailure, s) := by
  rw [Action.run, on_bind, on_evaluate, heval]
  change (decided (fun _ => Control.selectArm subject (armPrograms arms ctx)
    (optionProgram otherwise ctx)) >>= chosenArm).on s = _
  rw [on_bind, on_decided]
  cases Control.selectArm subject (armPrograms arms ctx) (optionProgram otherwise ctx) <;> rfl

theorem noneAccepts_armPrograms (ctx : Context) :
    NoneAccepts subject (armPrograms arms ctx) ↔ NoneAccepts subject arms := by
  have hpatterns : (armPrograms arms ctx).map Prod.fst = arms.map Prod.fst := by
    induction arms with
    | nil => rw [armPrograms, List.map_nil, List.map_nil]
    | cons arm rest ih =>
        obtain ⟨pattern, body⟩ := arm
        rw [armPrograms, List.map_cons, List.map_cons, ih]
  have hmap {α : Type} (l : List (Pattern × α)) : NoneAccepts subject l ↔
      ∀ pattern ∈ l.map Prod.fst, ∀ binding, ¬ pattern.Accepts subject binding := by
    simp [NoneAccepts]
  rw [hmap, hmap, hpatterns]

theorem Action.choose_matched (heval : Control.evaluate e s = .ok subject) :
    Matched subject arms otherwise ctx s (((Action.choose e arms otherwise).run id ctx).on s) := by
  have hfirst {before after : List (Pattern × List Step)} {pattern : Pattern} {body : List Step}
      {binding : Option Control.Binding} (harms : arms = before ++ (pattern, body) :: after)
      (hbefore : NoneAccepts subject before) (accepts : pattern.Accepts subject binding) :
      ((Action.choose e arms otherwise).run id ctx).on s = (Reached.value <$> inFrame
        (Scope.under ⟨.step, binding.toList⟩) (runSequence body ctx .null)).on s := by
    rw [choose_on heval, harms, armPrograms_append, armPrograms,
      Control.selectArm_of_accepts ((noneAccepts_armPrograms ctx).mpr hbefore) accepts]
    have henter : Control.declareAll binding.toList ∘ Scope.push .step =
        Scope.under ⟨.step, binding.toList⟩ := by
      funext s
      cases binding <;> exact Scope.declareAll_push _ .step s
    rw [← henter]
    rfl
  have hnone (h : NoneAccepts subject arms) :
      ((Action.choose e arms otherwise).run id ctx).on s =
        match Control.selectArm subject [] (optionProgram otherwise ctx) with
        | .ok arm => (chosenArm arm).on s
        | .error fault => .pure (.error fault.toError.toFailure, s) := by
    rw [choose_on heval, Control.selectArm_of_none ((noneAccepts_armPrograms ctx).mpr h)]
  have hotherwise {body : List Step} (h : NoneAccepts subject arms) (ho : otherwise = some body) :
      ((Action.choose e arms otherwise).run id ctx).on s = (Reached.value <$> inFrame
        (Scope.under ⟨.step, []⟩) (runSequence body ctx .null)).on s := by
    rw [hnone h, ho]
    rfl
  have hpasses (h : NoneAccepts subject arms) (ho : otherwise = none) (hlike : subject.ResultLike) :
      ((Action.choose e arms otherwise).run id ctx).on s = .pure (.ok (.value .null), s) := by
    rw [hnone h, ho, optionProgram, Control.selectArm,
      if_pos (Control.isSome_unwrapEnvelope?.mpr hlike)]
    rfl
  have hfails (h : NoneAccepts subject arms) (ho : otherwise = none) (hlike : ¬ subject.ResultLike) :
      ((Action.choose e arms otherwise).run id ctx).on s = .pure (.error
        (EngineError.matchExhausted s!"No clause matches {subject.render}").toFailure, s) := by
    rw [hnone h, ho, optionProgram, Control.selectArm,
      if_neg (fun hsome => hlike (Control.isSome_unwrapEnvelope?.mp hsome))]
    rfl
  have hexhausted {f : Failure} {s' : Scope}
      (hp : ((Action.choose e arms otherwise).run id ctx).on s = .pure (.error f, s')) :
      NoneAccepts subject arms ∧ otherwise = none ∧ ¬ subject.ResultLike := by
    by_cases h : NoneAccepts subject arms
    · cases ho : otherwise with
      | some body =>
          rw [hotherwise h ho] at hp
          exact absurd hp (inFrame_ne_error _ body ctx s s' f)
      | none =>
          refine ⟨h, rfl, fun hlike => ?_⟩
          rw [hpasses h ho hlike] at hp
          cases hp
    · obtain ⟨before, pattern, body, after, binding, harms, hbefore, accepts⟩ := Control.exists_first h
      rw [hfirst harms hbefore accepts] at hp
      exact absurd hp (inFrame_ne_error _ body ctx s s' f)
  refine ⟨hfirst, hotherwise, hpasses, ⟨?_, ?_⟩, fun hp => ?_⟩
  · rintro ⟨f, s', hp⟩
    exact hexhausted hp
  · rintro ⟨h, ho, hlike⟩
    exact ⟨_, _, hfails h ho hlike⟩
  · obtain ⟨h, ho, hlike⟩ := hexhausted hp
    rw [hfails h ho hlike] at hp
    cases hp
    exact ⟨rfl, rfl⟩

end

/-! ## Captured outcomes -/

theorem ErrorKind.ofJson?_toJson (kind : ErrorKind) : ofJson? kind.toJson = some kind := by
  cases kind <;> decide +kernel

namespace Outcome

def failureJson (kind : ErrorKind) (message : String) : Json :=
  .obj [("kind", kind.toJson), ("message", .str message)]

/-- A match finds again what the envelope of an outcome was made of. -/
structure Recovered (outcome : Outcome) : Prop where
  resultLike : outcome.envelope.ResultLike
  value {bind : Option String} {binding : Option Control.Binding} :
    (Pattern.ok bind).Accepts outcome.envelope binding ↔
      ∃ v, outcome = .ok v ∧ binding = bind.map fun name => (name, v)
  error {bind : Option String} {binding : Option Control.Binding} :
    (Pattern.err bind).Accepts outcome.envelope binding ↔
      ∃ kind message, outcome = .failed kind message ∧
        binding = bind.map fun name => (name, failureJson kind message)
  kind {kind : ErrorKind} {message : String} : outcome = .failed kind message →
    ((failureJson kind message).field? "kind").bind ErrorKind.ofJson? = some kind
  message {kind : ErrorKind} {message : String} : outcome = .failed kind message →
    ((failureJson kind message).field? "message").bind Json.asText? = some message

theorem recovered (outcome : Outcome) : outcome.Recovered where
  resultLike := by
    cases outcome with
    | ok v => exact ⟨_, .value rfl rfl⟩
    | failed kind message => exact ⟨_, .error rfl rfl⟩
  value {bind binding} := by
    constructor
    · intro h
      cases h with
      | ok holds =>
          cases outcome with
          | ok v =>
              cases holds.unique (.value rfl rfl)
              exact ⟨_, rfl, rfl⟩
          | failed kind message => cases holds.unique (.error rfl rfl)
    · rintro ⟨v, rfl, rfl⟩
      exact .ok (.value rfl rfl)
  error {bind binding} := by
    constructor
    · intro h
      cases h with
      | err holds =>
          cases outcome with
          | ok v => cases holds.unique (.value rfl rfl)
          | failed kind message =>
              cases holds.unique (.error rfl rfl)
              exact ⟨kind, message, rfl, rfl⟩
    · rintro ⟨kind, message, rfl, rfl⟩
      exact .err (.error rfl rfl)
  kind {kind _} _ := ErrorKind.ofJson?_toJson kind
  message _ := rfl

end Outcome

def Action.captures : Action → Bool
  | .call _ spec => spec.capture
  | .record _ spec => spec.capture
  | _ => false

namespace Exec

variable {α : Type} {bind : Option String} {ctx : Context} {id : String}

/-- As soon as a request of the program is answered, the program comes to its end: the envelope of the
outcome is its value, and it is bound to the name if there is one. -/
def Captures (bind : Option String) (x : Exec Json) : Prop :=
  ∀ (s : Scope) (deeds : List Deed) (run : Nat) (token : Token) (request : Request) (outcome : Outcome)
    (q : Program (Except Failure Json × Scope)),
    (x.on s).Follows (deeds ++ [⟨.request run token request, .ok outcome⟩]) q →
      q = .pure (.ok outcome.envelope, s.assignSome bind outcome.envelope)

namespace Captures

theorem throw (f : Failure) : (MonadExcept.throw f : Exec Json).Captures bind := by
  intro s deeds run token request outcome q h
  obtain ⟨hnil, -⟩ := Program.Follows.pure_iff.mp h
  exact absurd hnil (by simp)

/-- A decision is made before the request is sent. -/
theorem of_pure {x : Exec α} {f : α → Exec Json} (hx : ∀ s, ∃ r, x.on s = .pure (r, s))
    (hf : ∀ a, (f a).Captures bind) : (x >>= f).Captures bind := by
  intro s deeds run token request outcome q h
  obtain ⟨r, hr⟩ := hx s
  rw [on_bind, hr] at h
  cases r with
  | error f => exact throw f s deeds run token request outcome q h
  | ok a => exact hf a s deeds run token request outcome q h

theorem of_decided {d : Scope → Except Control.Fault α} {f : α → Exec Json}
    (hf : ∀ a, (f a).Captures bind) : (decided d >>= f).Captures bind :=
  of_pure (fun s => ⟨_, on_decided d s⟩) hf

theorem send (request : Request) : (do
    receive bind true (← send ctx id request) : Exec Json).Captures bind := by
  intro s deeds run token asked outcome q h
  obtain ⟨m, hm, hasked⟩ := Program.Follows.append_iff.mp h
  obtain ⟨rfl, rfl⟩ | ⟨(cancelled : Bool), d, rfl, hlooked⟩ := hm.cons_of_perform
  · obtain ⟨_, heq, -⟩ := Program.Follows.perform_cons_iff.mp hasked
    cases heq
  cases cancelled with
  | true =>
      obtain ⟨-, rfl⟩ := Program.Follows.pure_iff.mp hlooked
      cases (Program.Follows.pure_iff.mp hasked).1
  | false =>
      obtain ⟨rfl, rfl⟩ | ⟨answer, d, rfl, hanswered⟩ := Program.Follows.cons_of_perform hlooked
      · obtain ⟨answer, heq, hend⟩ := Program.Follows.perform_cons_iff.mp hasked
        cases heq
        rw [Program.Follows.nil_iff.mp hend]
        cases bind <;> rfl
      · cases answer with
        | ok answered =>
            cases bind with
            | none =>
                obtain ⟨-, rfl⟩ := Program.Follows.pure_iff.mp hanswered
                cases (Program.Follows.pure_iff.mp hasked).1
            | some name =>
                obtain ⟨-, rfl⟩ := Program.Follows.pure_iff.mp hanswered
                cases (Program.Follows.pure_iff.mp hasked).1
        | error moment =>
            obtain ⟨-, rfl⟩ := Program.Follows.pure_iff.mp hanswered
            cases (Program.Follows.pure_iff.mp hasked).1

end Captures
end Exec

theorem Exec.captures_record {spec : RecordSpec} (h : spec.capture = true) (ctx : Context)
    (id : String) (op : RecordOp) : (record ctx id op spec).Captures spec.bind := by
  have sent (request : RecordRequest) : (do
      receive spec.bind spec.capture (← send ctx id (.record request)) :
        Exec Json).Captures spec.bind := by
    rw [h]
    exact .send _
  have loaded (make : Json → RecordRequest) : (do
      let request ← make <$> payloadOf spec
      receive spec.bind spec.capture (← send ctx id (.record request)) :
        Exec Json).Captures spec.bind := by
    refine .of_pure (fun s => ?_) sent
    unfold payloadOf
    rw [on_map]
    cases spec.payload with
    | none => exact ⟨_, rfl⟩
    | some e =>
        dsimp only
        rw [on_evaluate]
        cases Control.evaluate e s <;> exact ⟨_, rfl⟩
  have filtered (go : Json → Exec Json) (hgo : ∀ filter, (go filter).Captures spec.bind) :
      (overFilter spec go).Captures spec.bind := by
    unfold overFilter
    cases spec.filter with
    | some e => exact .of_decided hgo
    | none => exact hgo _
  unfold record
  cases op with
  | create => exact filtered _ fun _ => loaded _
  | update => exact filtered _ fun filter => loaded _
  | delete => exact filtered _ fun filter => sent (.delete spec.record filter)
  | query => exact filtered _ fun filter => sent (.query spec.record filter)

/-- A capturing action is at its end as soon as its request is answered. It has stored the envelope. -/
theorem Action.eq_of_captured {action : Action} (h : action.captures = true) {id : String}
    {ctx : Context} {s : Scope} {deeds : List Deed} {run : Nat} {token : Token} {request : Request}
    {outcome : Outcome} {q : Program (Except Failure Reached × Scope)}
    (hf : ((action.run id ctx).on s).Follows
      (deeds ++ [⟨.request run token request, .ok outcome⟩]) q) :
    q = .pure (.ok (.value outcome.envelope), action.write outcome.envelope s) := by
  have hmap {bind : Option String} {x : Exec Json} (hx : x.Captures bind)
      (hf : ((Reached.value <$> x).on s).Follows
        (deeds ++ [⟨.request run token request, .ok outcome⟩]) q) :
      q = .pure (.ok (.value outcome.envelope), s.assignSome bind outcome.envelope) := by
    rw [on_map] at hf
    rcases hf.bind_cases with ⟨p, hp, rfl⟩ | ⟨h₁, h₂, ⟨r, s'⟩, hdeeds, hp, hk⟩
    · rw [hx s deeds run token request outcome p hp]
      rfl
    · have hnil : h₂ = [] := by
        cases r with
        | ok v => exact (Program.Follows.pure_iff.mp hk).1
        | error f => exact (Program.Follows.pure_iff.mp hk).1
      rw [hnil, List.append_nil] at hdeeds
      rw [← hdeeds] at hp
      cases hx s deeds run token request outcome _ hp
      rw [hnil] at hk
      exact Program.Follows.nil_iff.mp hk
  cases action with
  | call route spec =>
      rw [Action.run] at hf
      have hcall : (Execution.call ctx id route spec).Captures spec.bind := by
        unfold Execution.call
        rw [show spec.capture = true from h]
        exact .of_decided fun inputs => .send _
      exact hmap hcall hf
  | record op spec =>
      rw [Action.run] at hf
      exact hmap (captures_record h ctx id op) hf
  | _ => cases h

/-- Whatever its subject evaluates to, a match runs the body of the first arm that accepts it, in a new
frame with what the arm binds. If there is none it runs `otherwise`, or it passes over a subject that
looks like the result of a call, or else it fails. What a capturing step stores looks like the result of
a call, and the arms for values and for errors find again what the step was answered. -/
theorem first_accepting_arm_runs {e : Expr} {subject : Json} {arms : List (Pattern × List Step)}
    {otherwise : Option (List Step)} {ctx : Context} {id : String} {s : Scope}
    (heval : Control.evaluate e s = .ok subject) :
    Matched subject arms otherwise ctx s (((Action.choose e arms otherwise).run id ctx).on s) ∧
    ∀ (action : Action) (id : String) (ctx : Context) (s : Scope) (deeds : List Deed) (run : Nat)
      (token : Token) (request : Request) (outcome : Outcome)
      (q : Program (Except Failure Reached × Scope)), action.captures = true →
      ((action.run id ctx).on s).Follows (deeds ++ [⟨.request run token request, .ok outcome⟩]) q →
      q = .pure (.ok (.value outcome.envelope), action.write outcome.envelope s) ∧
        outcome.Recovered :=
  ⟨Action.choose_matched heval, fun _ _ _ _ _ _ _ _ outcome _ hcaptures hf =>
    ⟨Action.eq_of_captured hcaptures hf, outcome.recovered⟩⟩

/-- A tool has failed, its outcome was captured, and the second arm gets the error. -/
theorem first_accepting_arm_runs_captured : ∃ (ask check : Action) (ctx : Context) (s : Scope)
    (f : Frame) (body : List Step) (deeds : List Deed),
    ((ask.run "ask" ctx).on .empty).Follows deeds (.pure (.ok (.value
      (Outcome.failure "down").envelope), s)) ∧
    f.bindings = [("failure", Outcome.failureJson .stepExecution "down")] ∧
    (check.run "check" ctx).on s =
      (Reached.value <$> inFrame (Scope.under f) (runSequence body ctx .null)).on s := by
  let ask : Action := .call .tool ⟨"oracle", [], some "found", true⟩
  let body := [Step.mk "tell" (.script (.var "failure.message") none) none none]
  let found : List (Pattern × List Step) := [(.ok none, [])]
  let check : Action := .choose (.var "found") (found ++ [(.err (some "failure"), body)]) none
  let ctx : Context := ⟨0, .root 0, none⟩
  let outcome := Outcome.failure "down"
  let asks : Deed := ⟨.request 0 ctx.token (.call .tool "oracle" (.object [])), .ok outcome⟩
  let s := Scope.empty.assign "found" outcome.envelope
  have heval : Control.evaluate (.var "found") s = .ok outcome.envelope := by rfl
  have hasked : ((ask.run "ask" ctx).on .empty).Follows ([⟨.isCancelled ctx.token, false⟩] ++ [asks])
      (.pure (.ok (.value outcome.envelope), s)) := .deed (.deed (.start _))
  have hboth : Matched outcome.envelope (found ++ [(.err (some "failure"), body)]) none ctx s
      ((check.run "check" ctx).on s) ∧ _ := first_accepting_arm_runs heval
  obtain ⟨hmatched, hcaptured⟩ := hboth
  obtain ⟨-, hrecovered⟩ := hcaptured ask "ask" ctx .empty _ 0 ctx.token _ outcome _ rfl hasked
  have hrefuses : NoneAccepts outcome.envelope found := by
    intro arm harm binding accepts
    obtain rfl := List.mem_singleton.mp harm
    obtain ⟨v, hv, -⟩ := hrecovered.value.mp accepts
    exact Outcome.noConfusion hv
  exact ⟨ask, check, ctx, s, _, body, _, hasked, rfl,
    hmatched.first rfl hrefuses (hrecovered.error.mpr ⟨_, _, rfl, rfl⟩)⟩

end FlowEngine
