import FlowEngine.Proofs.Execution.Coherent

/-!
# Invariants of protocols that steps keep

Between transactions a step performs plain effects only, all of them in its own
scope of cancellation or in one below it. An invariant of protocol states that plain
effects keep is kept by every step, once it is known to be kept by transactions.
-/
namespace FlowEngine

open Exec Execution

variable {σ α β : Type} {P : Protocol σ}

namespace Exec

/-- The program obeys the protocol. From states with a property it leads to such states,
unless it fails in a state where it has to. -/
def Keeps (P : Protocol σ) (I J : σ → Prop) (x : Exec α) : Prop :=
  ∀ u, I u → x.Obeys P (fun v r => I v ∨ J v ∧ ∃ f, r = .error f) u

/-- From states where it has to fail, the program does. -/
def Fails (P : Protocol σ) (J : σ → Prop) (x : Exec α) : Prop :=
  ∀ u, J u → x.Obeys P (fun v r => J v ∧ ∃ f, r = .error f) u

variable {I J : σ → Prop}

theorem Keeps.obeys {x : Exec α} (hx : x.Keeps P I J) (hJ : ∀ u, ¬ J u) {u : σ} (hu : I u) :
    x.Obeys P (fun v _ => I v) u :=
  (hx u hu).mono fun v _ hv => hv.resolve_right fun h => hJ v h.1

theorem keeps_of_obeys {x : Exec α} (hx : ∀ u, I u → x.Obeys P (fun v _ => I v) u) :
    x.Keeps P I J :=
  fun u hu => (hx u hu).mono fun _ _ => Or.inl

theorem keeps_ofResult (r : Except Failure α) : (ofResult r).Keeps P I J :=
  fun _ hu => obeys_ofResult.mpr (Or.inl hu)

theorem keeps_pure (a : α) : (pure a : Exec α).Keeps P I J := keeps_ofResult (.ok a)

theorem keeps_throw (e : Failure) : (throw e : Exec α).Keeps P I J := keeps_ofResult (.error e)

theorem keeps_modify (g : Scope → Scope) : (modify g : Exec Unit).Keeps P I J :=
  fun _ hu => obeys_modify.mpr (Or.inl hu)

theorem Keeps.bind {x : Exec α} {f : α → Exec β} (hx : x.Keeps P I J)
    (hf : ∀ a, (f a).Keeps P I J) : (x >>= f).Keeps P I J := by
  intro u hu
  apply obeys_bind
  refine (hx u hu).mono ?_
  rintro v r (hv | ⟨hv, f, rfl⟩)
  · cases r with
    | ok a => exact hf a v hv
    | error e => exact Or.inl hv
  · exact Or.inr ⟨hv, f, rfl⟩

theorem Keeps.inFrame {x : Exec α} (hx : x.Keeps P I J) (enter : Scope → Scope) :
    (inFrame enter x).Keeps P I J :=
  fun u hu => obeys_inFrame (hx u hu)

theorem keeps_decided_bind {d : Scope → Except Control.Fault α} {f : α → Exec β}
    (hf : ∀ s a, d s = .ok a → (f a).Keeps P I J) : (decided d >>= f).Keeps P I J :=
  fun u hu => obeys_decided_bind (fun s a hd => hf s a hd u hu) fun _ => Or.inl hu

/-- Whoever looks at how a program ended must not go on where it has to fail. -/
theorem Keeps.outcome_bind {x : Exec α} {g : Except Failure α → Exec β} (hx : x.Keeps P I J)
    (hg : ∀ r, (g r).Keeps P I J) (hfail : ∀ f, (g (.error f)).Fails P J) :
    (x.outcome >>= g).Keeps P I J := by
  intro u hu
  refine obeys_bind (obeys_outcome ((hx u hu).mono ?_))
  rintro v r (hv | ⟨hv, f, rfl⟩)
  · exact hg r v hv
  · exact (hfail f v hv).mono fun _ _ => Or.inr

theorem fails_throw (e : Failure) : (throw e : Exec α).Fails P J :=
  fun _ hu => obeys_throw.mpr ⟨hu, e, rfl⟩

theorem fails_ofResult_bind (r : Except Failure α) {f : α → Exec β}
    (hf : ∀ a, (f a).Fails P J) : (ofResult r >>= f).Fails P J := by
  intro u hu
  refine obeys_bind (obeys_ofResult.mpr ?_)
  cases r with
  | ok a => exact hf a u hu
  | error e => exact ⟨hu, e, rfl⟩

end Exec

/-- The effects of steps in a scope of cancellation, apart from transactions and the
start of a step. -/
inductive Plain (ctx : Context) : Effect → Prop where
  | isCancelled : Plain ctx (.isCancelled ctx.token)
  | childToken : Plain ctx (.childToken ctx.token)
  | startDeadline (token : Token) (limit : Millis) : Plain ctx (.startDeadline token limit)
  | stopDeadline (deadline : Nat) : Plain ctx (.stopDeadline deadline)
  | note (entry : Entry) : Plain ctx (.note ctx.run entry)
  | endSpan (step : String) (status : StepStatus) : Plain ctx (.endSpan ctx step status)
  | request (request : Request) : Plain ctx (.request ctx.run ctx.token request)
  | sleep (span : Nat) : Plain ctx (.sleep (some ctx.token) span)
  | join (number : Nat) (policy : JoinPolicy) (bs : List Branch)
      (steps : ∀ b ∈ bs, ∃ scope body collect,
        b = .steps { ctx with token := ctx.token.child number } scope body collect) :
      Plain ctx (.join ctx.run policy (ctx.token.child number) bs)
  | settle : Plain ctx (.settle ctx.run (some ctx.token))

inductive Transactional (ctx : Context) : Effect → Prop where
  | begin : Transactional ctx (.beginTransaction ctx)
  | release (handle : String) : Transactional ctx (.releaseTransaction ctx.run handle)
  | discard (handle : String) : Transactional ctx (.discardSnapshot handle)
  | restore (handle : String) : Transactional ctx (.restoreSnapshot handle)

def Fatal : (e : Effect) → e.Answer → Prop
  | .request _ _ _, .error _ => True
  | .sleep _ _, waited => waited = false
  | .join _ _ _ _, _ => True
  | .settle _ _, _ => True
  | _, _ => False

def Futile : (e : Effect) → e.Answer → Prop
  | .isCancelled _, cancelled => cancelled = true
  | .sleep _ _, waited => waited = false
  | _, _ => True

/-- A family of invariants that plain effects keep, unless they are interrupted. -/
structure Tolerates {ι : Type} (P : Protocol σ) (I J : ι → Context → σ → Prop) : Prop where
  plain {i : ι} {ctx : Context} {u : σ} {e : Effect} : Plain ctx e → I i ctx u →
    P.allows u e ∧ ∀ a v, P.moves u e a v → I i ctx v ∨ J i ctx v ∧ Fatal e a
  starts {i : ι} {ctx : Context} {u v : σ} (step : String) : I i ctx u →
    P.moves u (.isCancelled ctx.token) false v → P.allows v (.startSpan ctx step) ∧
      ∀ a w, P.moves v (.startSpan ctx step) a w → I i ctx w
  futile {i : ι} {ctx : Context} {u : σ} {e : Effect} : Plain ctx e → J i ctx u →
    P.allows u e ∧ ∀ a v, P.moves u e a v → J i ctx v ∧ Futile e a
  child {i : ι} {ctx : Context} {u v : σ} {a : Token} : I i ctx u →
    P.moves u (.childToken ctx.token) a v → ∃ n, a = ctx.token.child n
  narrow {i : ι} {ctx : Context} {u : σ} (n : Nat) : I i ctx u →
    I i { ctx with token := ctx.token.child n } u
  widen {i : ι} {ctx : Context} {u v : σ} (n : Nat) : I i ctx u →
    I i { ctx with token := ctx.token.child n } v → I i ctx v
  widenFutile {i : ι} {ctx : Context} {u v : σ} (n : Nat) : I i ctx u →
    J i { ctx with token := ctx.token.child n } v → J i ctx v

namespace Tolerates

variable {ι : Type} {I J : ι → Context → σ → Prop} (T : Tolerates P I J) {i : ι} {ctx : Context}
include T

theorem ask_bind {e : Effect} {f : e.Answer → Exec α} (h : Plain ctx e)
    (hf : ∀ a, (f a).Keeps P (I i ctx) (J i ctx))
    (hfatal : ∀ a, Fatal e a → (f a).Fails P (J i ctx)) :
    (Exec.ask e >>= f).Keeps P (I i ctx) (J i ctx) := by
  intro u hu
  obtain ⟨hallows, hmoves⟩ := T.plain h hu
  refine obeys_bind (obeys_ask.mpr ⟨hallows, fun a v hmove => ?_⟩)
  rcases hmoves a v hmove with hv | ⟨hv, hfa⟩
  · exact hf a v hv
  · exact (hfatal a hfa v hv).mono fun _ _ => Or.inr

theorem fails_ask_bind {e : Effect} {f : e.Answer → Exec α} (h : Plain ctx e)
    (hf : ∀ a, Futile e a → (f a).Fails P (J i ctx)) : (Exec.ask e >>= f).Fails P (J i ctx) := by
  intro u hu
  obtain ⟨hallows, hmoves⟩ := T.futile h hu
  refine obeys_bind (obeys_ask.mpr ⟨hallows, fun a v hmove => ?_⟩)
  obtain ⟨hv, ha⟩ := hmoves a v hmove
  exact hf a ha v hv

theorem askChild {f : Token → Exec α}
    (hf : ∀ n, (f (ctx.token.child n)).Keeps P (I i ctx) (J i ctx)) :
    (Exec.ask (.childToken ctx.token) >>= f).Keeps P (I i ctx) (J i ctx) := by
  intro u hu
  obtain ⟨hallows, hmoves⟩ := T.plain .childToken hu
  refine obeys_bind (obeys_ask.mpr ⟨hallows, fun a v hmove => ?_⟩)
  obtain ⟨n, rfl⟩ := T.child hu hmove
  exact hf n v ((hmoves _ v hmove).resolve_right fun h => h.2)

theorem send (id : String) (request : Request) :
    (send ctx id request).Keeps P (I i ctx) (J i ctx) := by
  refine T.ask_bind .isCancelled (fun cancelled => ?_) nofun
  split
  · exact keeps_throw _
  · refine T.ask_bind (.request request) (fun answer => ?_) fun answer hfatal => ?_
    · split
      · exact keeps_pure _
      · exact keeps_throw _
    · cases answer with
      | ok outcome => exact hfatal.elim
      | error moment => exact fails_throw _

def Attempted (I J : σ → Prop) (v : σ) (r : Except Failure (Nat × Except Failure α)) : Prop :=
  I v ∨ J v ∧ ∃ number f, r = .ok (number, .error f)

theorem afterAttempt {again : Option (Exec (Nat × Except Failure α))}
    (h : ∀ x ∈ again, ∀ u, I i ctx u → x.Obeys P (Attempted (I i ctx) (J i ctx)) u) (id : String)
    (policy : Option RetryPolicy) (number : Nat) (r : Except Failure α) {u : σ}
    (hu : I i ctx u ∨ J i ctx u ∧ ∃ f, r = .error f) :
    (afterAttempt ctx id policy number again r).Obeys P (Attempted (I i ctx) (J i ctx)) u := by
  have ends (v : σ) (f : Failure) (hv : I i ctx v ∨ J i ctx v) :
      (pure (number, .error f) : Exec (Nat × Except Failure α)).Obeys P
        (Attempted (I i ctx) (J i ctx)) v :=
    obeys_pure.mpr (hv.imp (fun h => h) fun hv => ⟨hv, number, f, rfl⟩)
  have hu' : I i ctx u ∨ J i ctx u := hu.imp (fun h => h) And.left
  unfold Execution.afterAttempt
  split
  · refine obeys_pure.mpr (Or.inl (hu.resolve_right ?_))
    rintro ⟨-, f, ⟨⟩⟩
  · split
    · exact ends u _ hu'
    · exact ends u _ hu'
    · rename_i delay again hdecide
      rcases hu' with hu' | hu'
      · obtain ⟨hallows, hmoves⟩ := T.plain (.sleep delay.toNat) hu'
        refine obeys_bind (obeys_ask.mpr ⟨hallows, fun waited v hmove => ?_⟩)
        rcases hmoves waited v hmove with hv | ⟨hv, hfatal⟩
        · cases waited with
          | true => exact h again rfl v hv
          | false => exact ends v _ (Or.inl hv)
        · obtain rfl : waited = false := hfatal
          exact ends v _ (Or.inr hv)
      · obtain ⟨hallows, hmoves⟩ := T.futile (.sleep delay.toNat) hu'
        refine obeys_bind (obeys_ask.mpr ⟨hallows, fun waited v hmove => ?_⟩)
        obtain ⟨hv, hwaited⟩ := hmoves waited v hmove
        obtain rfl : waited = false := hwaited
        exact ends v _ (Or.inr hv)

theorem attempts {attempt : Exec α} (ha : attempt.Keeps P (I i ctx) (J i ctx)) (id : String)
    (policy : Option RetryPolicy) (further number : Nat) (u : σ) (hu : I i ctx u) :
    (attempts ctx id policy attempt further number).Obeys P (Attempted (I i ctx) (J i ctx)) u := by
  induction further generalizing number u with
  | zero =>
      refine obeys_bind (obeys_outcome ((ha u hu).mono fun v r hv => ?_))
      exact T.afterAttempt (by simp) id policy number r hv
  | succ further ih =>
      refine obeys_bind (obeys_outcome ((ha u hu).mono fun v r hv => ?_))
      refine T.afterAttempt ?_ id policy number r hv
      rintro x ⟨⟩
      exact ih (number + 1)

theorem node {attempt : Exec Reached} (ha : attempt.Keeps P (I i ctx) (J i ctx))
    (id kind : String) (retry : Option RetryPolicy) :
    (node ctx id kind retry attempt).Keeps P (I i ctx) (J i ctx) := by
  intro u hu
  obtain ⟨hallows, hmoves⟩ := T.plain .isCancelled hu
  refine obeys_bind (obeys_ask.mpr ⟨hallows, fun cancelled v hmove => ?_⟩)
  have hv := (hmoves cancelled v hmove).resolve_right fun h => h.2
  cases cancelled with
  | true => exact (T.ask_bind (.note _) (fun _ => keeps_throw _) nofun) v hv
  | false =>
      obtain ⟨hallows, hmoves⟩ := T.starts id hu hmove
      refine obeys_bind (obeys_ask.mpr ⟨hallows, fun _ w hmove => ?_⟩)
      refine obeys_bind ((T.attempts ha id retry _ 1 w (hmoves _ w hmove)).mono ?_)
      rintro x r (hx | ⟨hx, number, f, rfl⟩)
      · cases r with
        | error e => exact Or.inl hx
        | ok outcome =>
            obtain ⟨number, result⟩ := outcome
            refine (T.ask_bind (.note _) (fun _ => ?_) nofun) x hx
            refine T.ask_bind (.endSpan id _) (fun _ => ?_) nofun
            cases result with
            | ok reached => exact (keeps_modify _).bind fun _ => keeps_pure _
            | error f => exact keeps_throw _
      · refine Obeys.mono ((T.fails_ask_bind (.note _) fun _ _ => ?_) x hx) fun _ _ => Or.inr
        exact T.fails_ask_bind (.endSpan id _) fun _ _ => fails_throw _

theorem withDeadline {attempt : Context → Exec Reached}
    (ha : ∀ ctx, (attempt ctx).Keeps P (I i ctx) (J i ctx)) (id : String)
    (limit : Option Millis) :
    (withDeadline ctx id limit attempt).Keeps P (I i ctx) (J i ctx) := by
  unfold Execution.withDeadline
  cases limit with
  | none => exact ha ctx
  | some limit =>
      refine T.askChild fun n => T.ask_bind (.startDeadline _ limit) (fun deadline => ?_) nofun
      have hattempt : (attempt { ctx with token := ctx.token.child n }).Keeps P
          (I i ctx) (J i ctx) := by
        intro u hu
        refine (ha _ u (T.narrow n hu)).mono fun v _ hv => ?_
        exact hv.imp (T.widen n hu) fun h => ⟨T.widenFutile n hu h.1, h.2⟩
      refine hattempt.outcome_bind (fun result => ?_) fun f => ?_
      · refine T.ask_bind (.stopDeadline deadline) (fun passed => ?_) nofun
        cases result with
        | ok a => exact keeps_pure _
        | error f =>
            refine T.ask_bind .isCancelled (fun outer => ?_) nofun
            split
            · exact keeps_throw _
            · exact keeps_throw _
      · refine T.fails_ask_bind (.stopDeadline deadline) fun passed _ => ?_
        refine T.fails_ask_bind .isCancelled fun outer _ => ?_
        split
        · exact fails_throw _
        · exact fails_throw _

theorem fanOut {branches : Context → Scope → Except Control.Fault (List Branch)}
    (hbs : ∀ ctx s bs, branches ctx s = .ok bs → ∀ b ∈ bs, ∃ scope body collect,
      b = .steps ctx scope body collect) (id : String) (policy : JoinPolicy) :
    (fanOut ctx id policy branches).Keeps P (I i ctx) (J i ctx) := by
  refine T.askChild fun n => keeps_decided_bind fun s bs hok => ?_
  refine T.ask_bind (.join n policy bs (hbs _ s bs hok)) (fun joined => ?_) fun joined _ => ?_
  · refine (keeps_ofResult joined).bind fun outcomes => ?_
    refine T.ask_bind .isCancelled (fun cancelled => ?_) nofun
    split
    · exact keeps_throw _
    · exact keeps_pure _
  · refine fails_ofResult_bind joined fun outcomes => ?_
    refine T.fails_ask_bind .isCancelled fun cancelled hcancelled => ?_
    obtain rfl : cancelled = true := hcancelled
    exact fails_throw _

theorem boundary (hJ : ∀ u, ¬ J i ctx u) {handler : Exec Json}
    (hh : handler.Keeps P (I i ctx) (J i ctx)) (name : String) (f : Failure) :
    (boundary ctx name handler f).Keeps P (I i ctx) (J i ctx) := by
  unfold Execution.boundary
  split
  · refine T.ask_bind (.note _) (fun _ => ?_) nofun
    exact (hh.inFrame _).outcome_bind (fun result => keeps_ofResult _) fun f u hu => (hJ u hu).elim
  · exact keeps_throw _

theorem recover (hJ : ∀ u, ¬ J i ctx u) {handler : Option (Exec Json)}
    (hh : ∀ x ∈ handler, x.Keeps P (I i ctx) (J i ctx)) (id : String) (f : Failure) :
    (recover ctx id handler f).Keeps P (I i ctx) (J i ctx) := by
  unfold Execution.recover
  split
  · exact keeps_throw _
  · refine (T.boundary hJ (hh _ rfl) id _).bind fun handled => ?_
    exact T.ask_bind (.note _) (fun _ => keeps_pure _) nofun

/-- Transactions keep invariants that their effects on snapshots keep. -/
theorem transaction (hJ : ∀ u, ¬ J i ctx u) (ht : ∀ {e u}, Transactional ctx e → I i ctx u →
      P.allows u e ∧ ∀ a v, P.moves u e a v → I i ctx v) {body : Exec Json}
    {handler : Option (Exec Json)} (hb : body.Keeps P (I i ctx) (J i ctx))
    (hh : ∀ x ∈ handler, x.Keeps P (I i ctx) (J i ctx)) (id : String) :
    (transaction ctx id body handler).Keeps P (I i ctx) (J i ctx) := by
  have hno {β : Type} (x : Exec β) : x.Fails P (J i ctx) := fun u hu => (hJ u hu).elim
  have ask {e : Effect} (he : Transactional ctx e) {β : Type} {f : e.Answer → Exec β}
      (hf : ∀ a, (f a).Keeps P (I i ctx) (J i ctx)) :
      (Exec.ask e >>= f).Keeps P (I i ctx) (J i ctx) := by
    intro u hu
    obtain ⟨hallows, hmoves⟩ := ht he hu
    exact obeys_bind (obeys_ask.mpr ⟨hallows, fun a v hmove => hf a v (hmoves a v hmove)⟩)
  have settled : (settle ctx).Keeps P (I i ctx) (J i ctx) :=
    T.ask_bind .settle (fun _ => keeps_pure _) fun _ _ => hno _
  refine settled.bind fun _ => ask .begin fun begun => ?_
  refine (keeps_ofResult _).bind fun handle => ?_
  refine (hb.inFrame _).outcome_bind (fun result => ?_) fun f => hno _
  split
  · refine Keeps.bind ?_ fun _ => keeps_pure _
    refine ask (.release handle) fun released => (keeps_ofResult _).bind fun _ => ?_
    exact ask (.discard handle) fun discarded => keeps_ofResult _
  · refine settled.bind fun _ => Keeps.bind ?_ fun restored => ?_
    · refine ask (.release handle) fun released => ?_
      split
      · exact keeps_pure _
      · exact ask (.restore handle) fun restored => keeps_pure _
    · split
      · exact keeps_throw _
      · exact T.ask_bind (.note _) (fun _ => T.recover hJ hh id _) nofun

/-- What is left to show for a family of invariants: that transactions keep it. -/
theorem compositional (htransaction : ∀ {ctx : Context} {body : Exec Json}
    {handler : Option (Exec Json)} (id : String), (∀ i, body.Keeps P (I i ctx) (J i ctx)) →
      (∀ x ∈ handler, ∀ i, x.Keeps P (I i ctx) (J i ctx)) →
      ∀ i, (Execution.transaction ctx id body handler).Keeps P (I i ctx) (J i ctx)) :
    Compositional fun ctx _ x => ∀ i, x.Keeps P (I i ctx) (J i ctx) where
  result r _ := keeps_ofResult r
  alter _ _ := keeps_modify _
  bind hx hf i := (hx i).bind fun a => hf a i
  decide hf i := keeps_decided_bind fun s a hd => hf s a hd i
  inFrame _ hb i := (hb i).inFrame _
  send id request _ := T.send id request
  node id kind retry ha i := T.node (ha i) id kind retry
  deadline id limit ha i := T.withDeadline (fun ctx => ha ctx i) id limit
  fanOut id policy hbs _ := T.fanOut hbs id policy
  transaction _ _ id hb hh := htransaction id hb hh

/-- A family of invariants is kept by fitting steps if their transactions keep it. -/
theorem coherent {Fits : Step → Prop} (htransaction : ∀ {s : Step} {ctx : Context} {body : List Step}
      {onError : Option (List Step)}, Fits s → s.action = .transaction body onError →
      (∀ i, (runSequence body ctx .null).Keeps P (I i ctx) (J i ctx)) →
      (∀ x ∈ optionProgram onError ctx, ∀ i, x.Keeps P (I i ctx) (J i ctx)) →
      ∀ i, (Execution.transaction ctx s.id (runSequence body ctx .null)
        (optionProgram onError ctx)).Keeps P (I i ctx) (J i ctx)) :
    Coherent Fits Fits (fun _ => True) fun _ ctx _ _ x _ => ∀ i, x.Keeps P (I i ctx) (J i ctx) where
  acts fits := fits
  value a _ := keeps_pure a
  fails _ _ := keeps_throw _
  alter _ _ := keeps_modify _
  bind hx hf i := (hx i).bind fun a => hf a i
  decide hd hf i := by
    refine keeps_decided_bind fun scope a ha => ?_
    obtain ⟨a', hQ⟩ := (hd scope).exists_of_ok ha
    exact hf scope a a' ha hQ i
  inFrame _ hb i := (hb i).inFrame _
  send _ _ hf i := (T.send _ _).bind fun outcome => hf outcome trivial i
  node _ ha i := T.node (ha i) _ _ _
  inside hb := hb
  deadline _ ha i := T.withDeadline (fun ctx => ha ctx ctx i) _ _
  fanOut _ _ _ _ _ := T.fanOut (fun _ _ _ hbs => steps_of_branchesOf hbs) _ _
  transaction fits hs hb ho := htransaction fits hs hb (forall_of_rel ho)

end Tolerates
end FlowEngine
