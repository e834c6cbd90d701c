import FlowEngine.Proofs.Run.Closing
import FlowEngine.Proofs.Transaction.Ledger
import FlowEngine.Proofs.Transaction.Body
import Mathlib.Data.List.Nodup

/-!
# The fate of a snapshot

From the moment at which a transaction takes its snapshot the session is followed
task by task: while the body is going on the snapshot is in the hand of its task, and
then it is released and restored or discarded, in this order.
-/
namespace FlowEngine

open Exec Execution

namespace Custody

abbrev accounts (T : Token) : Discipline (Residence × Custody) :=
  Residence.discipline.both (discipline T)

structure Kept (T : Token) (config : Config) (log : List Occurrence) (s : System RunResult)
    (place : TaskId → Residence × Custody) : Prop where
  session : Session config log s
  obedient : s.outline.Obedient (accounts T) place
  residence : Residence.Holds s.outline fun t => (place t).1
  holds : Holds T s.outline place
  books : Books T log s.outline place
  closed : Residence.Closed log s.outline fun t => (place t).1

variable {T : Token} {config : Config} {log more : List Occurrence} {s s' : System RunResult}
  {place : TaskId → Residence × Custody} {t : TaskId}

theorem sound_accounts (T : Token) (config : Config) : (accounts T).Sound config fun o place =>
    Residence.Holds o (fun t => (place t).1) ∧ Holds T o place :=
  (Residence.sound config).extend (sound T config)

theorem Kept.reaches (h : Kept T config log s place) (hr : s.Reaches config more s') :
    ∃ place', Kept T config (log ++ more) s' place' ∧ ∀ t, (s.task? t).isSome →
      (s'.task? t).isSome ∧ Led (accounts T).protocol t (place t) more (place' t) := by
  have step {l more : List Occurrence} {o o' : Outline}
      {place place' : TaskId → Residence × Custody} (adv : o.Advances config more o')
      (hob : o.Obedient (accounts T) place)
      (hh : Residence.Holds o (fun t => (place t).1) ∧ Holds T o place)
      (hob' : o'.Obedient (accounts T) place')
      (hh' : Residence.Holds o' (fun t => (place' t).1) ∧ Holds T o' place')
      (moved : o.Moved (accounts T) more o' place place')
      (hk : Books T (log ++ l) o place ∧ Residence.Closed (log ++ l) o fun t => (place t).1) :
      Books T (log ++ (l ++ more)) o' place' ∧
        Residence.Closed (log ++ (l ++ more)) o' fun t => (place' t).1 := by
    rw [← List.append_assoc]
    exact ⟨hk.1.step adv hob hh.2 hh'.2 moved,
      hk.2.step adv hh.1 (fun ht => (hob.active ht).1.1) hh'.1 (Discipline.Moved.fst moved)⟩
  obtain ⟨place', hob, ⟨hres, hholds⟩, ⟨hbooks, hclosed⟩, hled⟩ :=
    (sound_accounts T config).along (K := fun l o place => Books T (log ++ l) o place ∧
      Residence.Closed (log ++ l) o fun t => (place t).1) step hr h.obedient
      ⟨h.residence, h.holds⟩ (by rw [List.append_nil]; exact ⟨h.books, h.closed⟩)
  obtain ⟨s₀, hs₀, hbefore⟩ := h.session
  exact ⟨place', ⟨⟨s₀, hs₀, hbefore.trans hr⟩, hob, hres, hholds, hbooks, hclosed⟩, hled⟩

theorem holds_initial {s : System RunResult} (h : System.Initial config s) :
    Holds T s.outline fun _ => (.outside, .free) := by
  obtain ⟨world, numbered⟩ := h
  exact ⟨numbered, fun t => Fine.free T _ t _, by rintro t u b b' ⟨⟩⟩

theorem kept_of_session (h : Session config log s) (T : Token) :
    ∃ place, Kept T config log s place := by
  obtain ⟨s₀, hs₀, hr⟩ := h
  have hkept : Kept T config [] s₀ fun _ => (.outside, .free) :=
    ⟨⟨s₀, hs₀, .refl⟩, (sound_accounts T config).obedient_initial hs₀, Residence.holds_initial hs₀,
      holds_initial hs₀, .empty T _ _, by rintro run ⟨⟩⟩
  obtain ⟨place, hplace, -⟩ := hkept.reaches hr
  exact ⟨place, hplace⟩

theorem Kept.answered (h : Kept T config log s place) {e : Effect} {a : e.Answer}
    {before after : Machine} (move : s.Moves config [.poll ⟨t, e, some a, before, after⟩] s') :
    ∃ place', Kept T config (log ++ [.poll ⟨t, e, some a, before, after⟩]) s' place' ∧
      (accounts T).protocol.allows (place t) e ∧
        (accounts T).protocol.moves (place t) e a (place' t) := by
  obtain ⟨place', hkept, hled⟩ := h.reaches (.single move)
  have hadv := move.advances
  have hsome : (s.task? t).isSome ∧ (accounts T).protocol.allows (place t) e := by
    rw [← System.task?_outline]
    generalize s'.outline = o' at hadv
    cases hadv with
    | answer running active start polls =>
        exact ⟨Option.isSome_of_eq_some active, (h.obedient.active active).1⟩
  obtain ⟨x, hpath, hx⟩ := (hled t hsome.1).2
  simp only [deedsOf, if_true] at hpath
  obtain ⟨y, hmove, hpath⟩ := Protocol.Path.cons_iff.mp hpath
  rw [Protocol.Path.nil_iff] at hpath
  refine ⟨place', hkept, hsome.2, ?_⟩
  rw [hx fun hr => absurd hr.2 (by simp), hpath]
  exact hmove

/-- The moment at which a transaction takes its snapshot. -/
theorem Kept.begun (h : Kept T config log s place) {ctx : Context} {handle : String}
    {before after : Machine}
    (move : s.Moves config [.poll ⟨t, .beginTransaction ctx, some (.ok handle), before, after⟩] s') :
    ∃ place' b id body onError scope, ∃ k : Except Failure Reached × Scope → Program t.Result,
      Kept T config (log ++ [.poll ⟨t, .beginTransaction ctx, some (.ok handle), before, after⟩])
        s' place' ∧ (place' t).2 = holding b false ∧ b.Of T ctx handle before ∧
      s'.At t (((opened ctx id body onError (.ok handle)).on scope).bind k) := by
  obtain ⟨place', hkept, hallows, hmove⟩ := h.answered move
  have hadv := move.advances
  obtain ⟨-, -, -, b, hplace, hof⟩ := block_of_begin hadv hkept.holds hallows.2 hmove.2
  have hafter : ∃ next, s.At t (.perform (.beginTransaction ctx) next) ∧
      s'.At t (next (.ok handle)) := by
    obtain ⟨o', ho'⟩ : ∃ o', s'.outline = o' := ⟨_, rfl⟩
    unfold System.At
    simp only [← System.task?_outline]
    rw [ho'] at hadv ⊢
    cases hadv with
    | answer running active start polls => exact ⟨_, ⟨_, active⟩, ⟨_, task?_answered active polls⟩⟩
  obtain ⟨next, hat, hat'⟩ := hafter
  obtain ⟨id, body, onError, scope, k, rfl⟩ := h.session.opens hat
  exact ⟨place', b, id, body, onError, scope, k, hkept, hplace, hof, hat'⟩

structure Enters (T : Token) (config : Config) (log : List Occurrence) (s : System RunResult)
    (place : TaskId → Residence × Custody) (t : TaskId) (b : Block) (id : String)
    (body : List Step) (onError : Option (List Step)) (scope : Scope)
    (k : Except Failure Reached × Scope → Program t.Result) : Prop where
  kept : Kept T config log s place
  inHand : (place t).2 = holding b false
  within : b.watched = true → T.covers b.ctx.token = true
  comes : s.At t (((opened b.ctx id body onError (.ok b.handle)).on scope).bind k)

inductive Progress (T : Token) (b : Block) (id : String) (body : List Step)
    (onError : Option (List Step)) (scope : Scope) {α : Type}
    (k : Except Failure Reached × Scope → Program α) (deeds : List Deed) (q : Program α)
    (now : Custody → Prop) : Prop where
  | inside {e : Effect} {next : e.Answer → Program (Except Failure Json × Scope)} {lost : Bool}
      (follows : ((runSequence body b.ctx .null).on (scope.push .step)).Follows deeds
        (.perform e next)) (place : now (holding b lost))
  | outside {d rest : List Deed} {r : Except Failure Json} {s : Scope} {lost : Bool} {v : Custody}
      (split : deeds = d ++ rest)
      (ends : ((runSequence body b.ctx .null).on (scope.push .step)).Follows d (.pure (r, s)))
      (loses : lost = true → ∃ f, r = .error f)
      (follows : ((afterBody b.ctx id b.handle (optionProgram onError b.ctx) (r, s)).bind k).Follows
        rest q) (path : (protocol T).Path (holding b lost) rest v)
      (place : (∃ a, q = .pure a) ∨ now v)

theorem Enters.progress {b : Block} {id : String} {body : List Step} {onError : Option (List Step)}
    {scope : Scope} {k : Except Failure Reached × Scope → Program t.Result}
    (h : Enters T config log s place t b id body onError scope k)
    (hr : s.Reaches config more s') : ∃ place' q, Kept T config (log ++ more) s' place' ∧
      (s'.At t q ∧ ¬ Restarted t more ∨
        ∃ a, q = .pure a ∧ ((∃ n, s'.task? t = some (.ended a n)) ∨ Restarted t more)) ∧
      Progress T b id body onError scope k (deedsOf t more) q fun v => (place' t).2 = v := by
  obtain ⟨place', hkept, hled⟩ := h.kept.reaches hr
  obtain ⟨q, hq, hnow⟩ := hr.follows h.comes
  refine ⟨place', q, hkept, hnow, ?_⟩
  have hsome : (s.task? t).isSome := by
    obtain ⟨w, hw⟩ := h.comes
    exact Option.isSome_of_eq_some hw
  obtain ⟨x, hpath, hx⟩ := (hled t hsome).2
  have hpath := hpath.snd
  rw [h.inHand] at hpath
  have hplace (hn : ∀ a, q ≠ .pure a) : (place' t).2 = x.2 := by
    rcases hnow with ⟨-, hr⟩ | ⟨a, hpure, -⟩
    · rw [hx hr]
    · exact absurd hpure (hn a)
  rw [opened_on, Program.bind_assoc] at hq
  have hended {d rest : List Deed} {r : Except Failure Json} {s : Scope}
      (split : deedsOf t more = d ++ rest)
      (ends : ((runSequence body b.ctx .null).on (scope.push .step)).Follows d (.pure (r, s)))
      (follows : ((afterBody b.ctx id b.handle (optionProgram onError b.ctx) (r, s)).bind k).Follows
        rest q) : Progress T b id body onError scope k (deedsOf t more) q
          fun v => (place' t).2 = v := by
    rw [split] at hpath
    obtain ⟨v, hbody, hrest⟩ := Protocol.Path.append_iff.mp hpath
    have hlast : (∃ a, q = .pure a) ∨ (place' t).2 = x.2 := by
      cases q with
      | pure a => exact Or.inl ⟨a, rfl⟩
      | perform e next => exact Or.inr (hplace nofun)
    rcases holding_of_body rfl h.within ends hbody with rfl | ⟨rfl, hfail⟩
    · refine .outside split ends ?_ follows hrest hlast
      rintro ⟨⟩
    · exact .outside split ends (fun _ => hfail) follows hrest hlast
  rcases hq.bind_cases with ⟨p', hp', rfl⟩ | ⟨d, rest, ⟨r, s⟩, hsplit, hd, hrest⟩
  · cases p' with
    | pure p =>
        obtain ⟨r, s⟩ := p
        exact hended (List.append_nil _).symm hp' (.start _)
    | perform e next =>
        obtain ⟨lost, hlost⟩ := holding_of_quiet (quiet_sequence body b.ctx _) hp' hpath
        exact .inside hp' ((hplace nofun).trans hlost)
  · exact hended hsplit hd hrest

namespace Progress

variable {b : Block} {id : String} {body : List Step} {onError : Option (List Step)}
  {scope : Scope} {α : Type} {k : Except Failure Reached × Scope → Program α} {rest : List Deed}
  {q : Program α} {lost : Bool} {v : Custody} {now : Custody → Prop} {s : Scope}

/-- A transaction whose body completed discards its snapshot. -/
theorem committed {handler : Option (Exec Json)} {output : Json}
    (follows : ((afterBody b.ctx id b.handle handler (.ok output, s)).bind k).Follows rest q)
    (path : (protocol T).Path (holding b lost) rest v) (place : (∃ a, q = .pure a) ∨ now v) :
    (∃ c, now c ∧ c.block? = some b) ∨
      ∃ a more, rest = ⟨.releaseTransaction b.ctx.run b.handle, .ok ()⟩ ::
        ⟨.discardSnapshot b.handle, a⟩ :: more := by
  have here (hq : ∀ a, q ≠ .pure a) (hv : v.block? = some b) : ∃ c, now c ∧ c.block? = some b :=
    ⟨v, place.resolve_left fun ⟨a, ha⟩ => hq a ha, hv⟩
  rw [afterBody_ok, Program.bind_perform] at follows
  rcases follows.cons_of_perform with ⟨rfl, rfl⟩ | ⟨released, rest₁, rfl, h₁⟩
  · rw [Protocol.Path.nil_iff] at path
    exact Or.inl (here nofun (by rw [path]; rfl))
  · obtain ⟨u, ⟨rfl, rfl⟩, path₁⟩ := Protocol.Path.cons_iff.mp path
    rcases h₁.cons_of_perform with ⟨rfl, rfl⟩ | ⟨discarded, rest₂, rfl, -⟩
    · rw [Protocol.Path.nil_iff] at path₁
      exact Or.inl (here nofun (by rw [path₁]; rfl))
    · exact Or.inr ⟨discarded, rest₂, rfl⟩

/-- A transaction whose body failed waits for abandoned branches, releases its snapshot and
restores it. -/
theorem undone {f : Failure}
    (follows : ((afterBody b.ctx id b.handle (optionProgram onError b.ctx) (.error f, s)).bind
      k).Follows rest q)
    (path : (protocol T).Path (holding b lost) rest v) (place : (∃ a, q = .pure a) ∨ now v) :
    (∃ settled c, rest <+: [⟨.settle b.ctx.run (some b.ctx.token), settled⟩,
        ⟨.releaseTransaction b.ctx.run b.handle, .ok ()⟩] ∧ now c ∧ c.block? = some b ∧
          (rest.length = 2 → ∃ lost, c = released b lost)) ∨
      ∃ settled a more, rest = ⟨.settle b.ctx.run (some b.ctx.token), settled⟩ ::
        ⟨.releaseTransaction b.ctx.run b.handle, .ok ()⟩ ::
        ⟨.restoreSnapshot b.handle, a⟩ :: more ∧ (a = .ok () →
          ((Program.perform (.note b.ctx.run (.rolledBack id)) fun _ =>
            afterRollback b.ctx id onError f.rolledBack s.leave).bind k).Follows more q) := by
  have here (hq : ∀ a, q ≠ .pure a) : now v := place.resolve_left fun ⟨a, ha⟩ => hq a ha
  rw [afterBody_error, Program.bind_perform] at follows
  rcases follows.cons_of_perform with ⟨rfl, rfl⟩ | ⟨settled, rest₁, rfl, h₁⟩
  · rw [Protocol.Path.nil_iff] at path
    exact Or.inl ⟨.ok 0, v, List.nil_prefix, here nofun, by rw [path]; rfl, nofun⟩
  · obtain ⟨u, hmove, path₁⟩ := Protocol.Path.cons_iff.mp path
    obtain ⟨lost', rfl⟩ : ∃ lost', u = holding b lost' := by
      rcases hmove with ⟨rfl, -⟩ | ⟨rfl, -⟩ <;> exact ⟨_, rfl⟩
    rcases h₁.cons_of_perform with ⟨rfl, rfl⟩ | ⟨released, rest₂, rfl, h₂⟩
    · rw [Protocol.Path.nil_iff] at path₁
      exact Or.inl ⟨settled, v, ⟨_, rfl⟩, here nofun, by rw [path₁]; rfl, nofun⟩
    · obtain ⟨u, ⟨rfl, rfl⟩, path₂⟩ := Protocol.Path.cons_iff.mp path₁
      rcases h₂.cons_of_perform with ⟨rfl, rfl⟩ | ⟨restored, rest₃, rfl, h₃⟩
      · rw [Protocol.Path.nil_iff] at path₂
        exact Or.inl ⟨settled, v, ⟨[], rfl⟩, here nofun, by rw [path₂]; rfl, fun _ => ⟨_, path₂⟩⟩
      · refine Or.inr ⟨settled, restored, rest₃, rfl, ?_⟩
        rintro rfl
        exact h₃

end Progress

/-- A snapshot that was given back is in nobody's hand, and it was given back once. -/
theorem Kept.given (h : Kept T config log s place) {b : Block} (hgiven : b.handle ∈ givings log) :
    (discardings log).count b.handle + (restorings log).count b.handle ≤ 1 ∧
      (place t).2.block? ≠ some b := by
  have hone : (givings log).count b.handle = 1 :=
    List.count_eq_one_of_mem h.books.once hgiven
  exact ⟨hone ▸ count_le_givings b.handle log, fun hb => h.books.gone hgiven hb rfl⟩

/-- A snapshot that is in the hand of a task was not given back. -/
theorem Kept.open_of_block (h : Kept T config log s place) {b : Block}
    (hb : (place t).2.block? = some b) :
    (discardings log).count b.handle = 0 ∧ (restorings log).count b.handle = 0 := by
  have hnot : b.handle ∉ givings log := fun hg => h.books.gone hg hb rfl
  have hzero := count_le_givings b.handle log
  rw [List.count_eq_zero.mpr hnot] at hzero
  omega

theorem Kept.not_closed (h : Kept T config log s place) {b : Block}
    (hb : (place t).2.block? = some b) : b.ctx.run ∉ closings log := by
  intro hrun
  obtain ⟨p, w, hp⟩ := (h.holds.fine t).active hb
  obtain ⟨home, hhome, hhrun⟩ := (h.holds.fine t).housed hb
  exact (h.closed _ hrun).2 ⟨t, p, w, home, hp, hhome, hhrun⟩

theorem Kept.given_of_closed (h : Kept T config log s place) {run : Nat} {handle : String}
    (htaken : (run, handle) ∈ takings log) (hclosed : run ∈ closings log) :
    handle ∈ givings log := by
  obtain ⟨t, ctx, m, m', rfl, hm⟩ := mem_takings.mp htaken
  rcases h.books.inHand hm with hgiven | ⟨b, hb, hof⟩
  · exact hgiven
  · have hopen := h.not_closed hb
    rw [hof.ctx] at hopen
    exact absurd hclosed hopen

theorem Kept.eq_of_run (h : Kept T config log s place) {u : TaskId} {b b' : Block}
    (hb : (place t).2.block? = some b) (hb' : (place u).2.block? = some b')
    (hrun : b.ctx.run = b'.ctx.run) : b = b' := by
  have hsame (htu : t = u) : b = b' := by
    rw [htu, hb'] at hb
    exact (Option.some.inj hb).symm
  have ht := h.holds.fine t
  have hu := h.holds.fine u
  cases hplace : (place t).2 with
  | free =>
      rw [hplace] at hb
      cases hb
  | holding c lost =>
      have hslot := ht.slot hplace
      obtain rfl : c = b := by simpa [hplace, block?] using hb
      cases hplace' : (place u).2 with
      | free =>
          rw [hplace'] at hb'
          cases hb'
      | holding c' lost' =>
          have hslot' := hu.slot hplace'
          obtain rfl : c' = b' := by simpa [hplace', block?] using hb'
          rw [hrun, hslot'] at hslot
          exact hsame (h.holds.sole hb hb' (Option.some.inj hslot).symm)
      | released c' lost' =>
          obtain ⟨-, hslot', -⟩ := hu.released hplace'
          obtain rfl : c' = b' := by simpa [hplace', block?] using hb'
          rw [hrun, hslot'] at hslot
          cases hslot
  | released c lost =>
      obtain ⟨hrunning, hslot, -⟩ := ht.released hplace
      obtain rfl : c = b := by simpa [hplace, block?] using hb
      cases hplace' : (place u).2 with
      | free =>
          rw [hplace'] at hb'
          cases hb'
      | holding c' lost' =>
          have hslot' := hu.slot hplace'
          obtain rfl : c' = b' := by simpa [hplace', block?] using hb'
          rw [hrun, hslot'] at hslot
          cases hslot
      | released c' lost' =>
          obtain ⟨hrunning', -, -⟩ := hu.released hplace'
          exact hsame (Option.some.inj (hrunning.symm.trans hrunning'))

/-- What became of the snapshot of a transaction: it is in hand, or it was discarded after
the body completed, or it was restored after the body failed. -/
theorem Enters.fate {b : Block} {id : String} {body : List Step} {onError : Option (List Step)}
    {scope : Scope} {k : Except Failure Reached × Scope → Program t.Result}
    (h : Enters T config log s place t b id body onError scope k)
    (hrestore : s'.machine.world.store.script.restoreError = none)
    (hdiscard : s'.machine.world.store.script.discardError = none)
    (hr : s.Reaches config more s') : ∃ place', Kept T config (log ++ more) s' place' ∧
      ((place' t).2.block? = some b ∨
        (∃ output sc, ((runSequence body b.ctx .null).on (scope.push .step)).Yields
          (deedsOf t more) (.ok output, sc)) ∧
            (discardings (log ++ more)).count b.handle = 1 ∧
            (restorings (log ++ more)).count b.handle = 0 ∨
        (∃ f sc, ((runSequence body b.ctx .null).on (scope.push .step)).Yields
          (deedsOf t more) (.error f, sc)) ∧
            (discardings (log ++ more)).count b.handle = 0 ∧
            (restorings (log ++ more)).count b.handle = 1) := by
  obtain ⟨place', q, hkept, -, hprogress⟩ := h.progress hr
  refine ⟨place', hkept, ?_⟩
  have haccepted {e : Effect} {a : e.Answer} (he : Giving b.handle e)
      (hdeed : (⟨e, a⟩ : Deed) ∈ deedsOf t more) : b.handle ∈ givings (log ++ more) ∧
        Accepted e a ∧ ∃ before after, .poll ⟨t, e, some a, before, after⟩ ∈ log ++ more := by
    obtain ⟨before, after, hm⟩ := mem_of_deed hdeed
    have hm' := List.mem_append_right log hm
    exact ⟨mem_givings.mpr ⟨t, e, a, before, after, he, hm'⟩,
      hkept.books.accepted hrestore hdiscard he hm', before, after, hm'⟩
  cases hprogress with
  | inside follows inHand => exact Or.inl (by rw [inHand]; rfl)
  | @outside d rest r sc lost v split ends loses follows path inHand =>
      cases r with
      | ok output =>
          rcases Progress.committed follows path inHand with ⟨c, hc, hb⟩ | ⟨a, more', hrest⟩
          · exact Or.inl (hc ▸ hb)
          · have hdeed : (⟨.discardSnapshot b.handle, a⟩ : Deed) ∈ deedsOf t more := by
              simp [split, hrest]
            obtain ⟨hgiven, ha, before, after, hm⟩ := haccepted .discard hdeed
            obtain rfl : a = .ok () := ha
            have hmem : b.handle ∈ discardings (log ++ more) :=
              List.mem_filterMap.mpr ⟨_, hm, rfl⟩
            have hpos := List.count_pos_iff.mpr hmem
            have hle := (hkept.given (t := t) hgiven).1
            exact Or.inr (Or.inl ⟨⟨output, sc, d, rest, split, ends⟩, by omega, by omega⟩)
      | error f =>
          rcases Progress.undone follows path inHand with
            ⟨settled, c, -, hc, hb, -⟩ | ⟨settled, a, more', hrest, -⟩
          · exact Or.inl (hc ▸ hb)
          · have hdeed : (⟨.restoreSnapshot b.handle, a⟩ : Deed) ∈ deedsOf t more := by
              simp [split, hrest]
            obtain ⟨hgiven, ha, before, after, hm⟩ := haccepted .restore hdeed
            obtain rfl : a = .ok () := ha
            have hmem : b.handle ∈ restorings (log ++ more) :=
              List.mem_filterMap.mpr ⟨_, hm, rfl⟩
            have hpos := List.count_pos_iff.mpr hmem
            have hle := (hkept.given (t := t) hgiven).1
            exact Or.inr (Or.inr ⟨⟨f, sc, d, rest, split, ends⟩, by omega, by omega⟩)

end Custody
end FlowEngine
