import FlowEngine.Proofs.Machine.Advance
import FlowEngine.Proofs.Run.Draining
import FlowEngine.Proofs.Session.Discipline
import FlowEngine.Proofs.Transaction.Custody

/-!
# Slots and snapshots

A task with a snapshot in hand belongs to the run that it took it for; the slot of the
run names the snapshot until the task releases it, and the store keeps what was saved.
No two tasks have the same snapshot in hand. Nobody but the running task has released
one, so the slot is not empty for long.
-/
namespace FlowEngine

namespace Outline

def OfSnapshot : Effect → Prop
  | .beginTransaction _ | .releaseTransaction _ _ | .discardSnapshot _ | .restoreSnapshot _ => True
  | _ => False

variable {o o₁ : Outline}

/-- Other effects leave the snapshots and the slots alone. -/
theorem Polls.ledger {w : Wait} {e : Effect} {turn : Turn e.Answer} (h : o.Polls w o₁ e turn)
    (he : ¬ OfSnapshot e) : o₁.store.store.snapshots = o.store.store.snapshots ∧
      o₁.store.store.taken = o.store.store.taken ∧ ∀ run, o₁.slot run = o.slot run := by
  cases h.alters with
  | begun begins => exact absurd trivial he
  | released slot => exact absurd trivial he
  | discarded discards => exact absurd trivial he
  | restored restores => exact absurd trivial he
  | @performed run token operation =>
      obtain ⟨calls, collections, hs⟩ := o.store.perform_eq operation
      rw [hs]
      exact ⟨rfl, rfl, fun _ => rfl⟩
  | noted => exact ⟨rfl, rfl, fun r => slot_modifyRun_of_eq _ _ r fun _ => rfl⟩
  | failed left => exact ⟨rfl, rfl, fun r => slot_modifyRun_of_eq _ _ r fun _ => rfl⟩
  | settled left => exact ⟨rfl, rfl, fun r => slot_modifyRun_of_eq _ _ r fun _ => rfl⟩
  | closed journal => exact ⟨rfl, rfl, fun r => slot_modifyRun_of_eq _ _ r fun _ => rfl⟩
  | opened => exact ⟨rfl, rfl, o.slot_open _⟩
  | _ => exact ⟨rfl, rfl, fun _ => rfl⟩

end Outline

namespace Custody

structure Fine (T : Token) (o : Outline) (t : TaskId) (r : Residence) (c : Custody) : Prop where
  active {b : Block} : c.block? = some b → ∃ p w, o.task? t = some (.active p w)
  housed {b : Block} : c.block? = some b → ∃ home, r.home? = some home ∧ home.run = b.ctx.run
  saved {b : Block} : c.block? = some b → o.store.store.saved? b.handle = some b.saved
  slot {b : Block} {lost : Bool} : c = holding b lost → (o.slot b.ctx.run).held = some b.handle
  waiting {b : Block} {lost : Bool} : c = holding b lost → o.running = some t ∨ o.Suspended t
  alert {b : Block} : c = holding b false → b.watched = true → o.isCancelled T = true →
    o.Suspended t
  released {b : Block} {lost : Bool} : c = released b lost → o.running = some t ∧
    (o.slot b.ctx.run).held = none ∧
      (lost = false → b.watched = true → o.isCancelled T = false)
  lost {b : Block} : c = .holding b true ∨ c = .released b true →
    b.watched = true ∧ o.isCancelled T = true
  unwatched {b : Block} : c.block? = some b → b.watched = false →
    T.covers b.ctx.token = true → o.isCancelled T = true

theorem Fine.free (T : Token) (o : Outline) (t : TaskId) (r : Residence) : Fine T o t r free := by
  constructor <;> simp [block?]

theorem Fine.rest {T : Token} {o o' : Outline} {t : TaskId} {r r' : Residence} {c : Custody}
    (h : Fine T o t r c) (hsuspended : ∀ b lost, c = .holding b lost → o'.Suspended t)
    (hreleased : ∀ b lost, c ≠ .released b lost) (hhome : r'.home? = r.home?)
    (hsaved : ∀ b, c.block? = some b →
      o'.store.store.saved? b.handle = o.store.store.saved? b.handle)
    (hslot : ∀ b lost, c = .holding b lost → o'.slot b.ctx.run = o.slot b.ctx.run)
    (hcancelled : o.cancelled <:+ o'.cancelled) : Fine T o' t r' c := by
  have hmono : o.isCancelled T = true → o'.isCancelled T = true := Token.isCancelled_mono hcancelled
  constructor
  · intro b hb
    cases c with
    | free => cases hb
    | released b lost => exact absurd rfl (hreleased b lost)
    | holding b lost =>
        obtain ⟨e, next, w, hs, -⟩ := hsuspended b lost rfl
        exact ⟨_, w, hs⟩
  · intro b hb
    rw [hhome]
    exact h.housed hb
  · intro b hb
    rw [hsaved b hb]
    exact h.saved hb
  · intro b lost hc
    rw [hslot b lost hc]
    exact h.slot hc
  · exact fun hc => Or.inr (hsuspended _ _ hc)
  · exact fun hc _ _ => hsuspended _ _ hc
  · exact fun hc => absurd hc (hreleased _ _)
  · exact fun hc => (h.lost hc).imp id hmono
  · exact fun hb hw hcovers => hmono (h.unwatched hb hw hcovers)

theorem Fine.frame {T : Token} {o o' : Outline} {t : TaskId} {r r' : Residence} {c : Custody}
    (h : Fine T o t r c) (hrunning : o.running ≠ some t)
    (htask : ∀ state, o.task? t = some state → o'.task? t = some state)
    (hhome : r'.home? = r.home?)
    (hsaved : ∀ b, c.block? = some b →
      o'.store.store.saved? b.handle = o.store.store.saved? b.handle)
    (hslot : ∀ b lost, c = .holding b lost → o'.slot b.ctx.run = o.slot b.ctx.run)
    (hcancelled : o.cancelled <:+ o'.cancelled) : Fine T o' t r' c := by
  refine h.rest (fun b lost hc => ?_) (fun b lost hc => hrunning (h.released hc).1) hhome hsaved
    hslot hcancelled
  obtain ⟨e, next, w, hs, he⟩ := (h.waiting hc).resolve_left hrunning
  exact ⟨e, next, w, htask _ hs, he⟩

structure Holds (T : Token) (o : Outline) (place : TaskId → Residence × Custody) : Prop where
  numbered : o.store.store.Numbered
  fine (t : TaskId) : Fine T o t (place t).1 (place t).2
  sole {t u : TaskId} {b b' : Block} : (place t).2.block? = some b → (place u).2.block? = some b' →
    b.handle = b'.handle → t = u

variable {T : Token} {o o' o₁ : Outline} {place place' : TaskId → Residence × Custody}

theorem Holds.frame (h : Holds T o place)
    (hplace : ∀ t, place' t = place t ∨ (place' t).2 = .free)
    (hrunning : ∀ t b, (place' t).2.block? = some b → o.running ≠ some t)
    (htask : ∀ t b state, (place' t).2.block? = some b → o.task? t = some state →
      o'.task? t = some state)
    (hstore : o'.store = o.store) (hslot : ∀ run, o'.slot run = o.slot run)
    (hcancelled : o.cancelled <:+ o'.cancelled) : Holds T o' place' := by
  have hblock {t : TaskId} {b : Block} (hb : (place' t).2.block? = some b) :
      (place t).2.block? = some b := by
    rcases hplace t with ht | ht
    · rwa [ht] at hb
    · rw [ht] at hb
      cases hb
  constructor
  · rw [hstore]
    exact h.numbered
  · intro t
    cases hc : (place' t).2.block? with
    | none =>
        have hfree : (place' t).2 = .free := by
          cases hp : (place' t).2 with
          | free => rfl
          | _ =>
              rw [hp] at hc
              cases hc
        rw [hfree]
        exact Fine.free T o' t _
    | some b =>
        have hsame : place' t = place t := by
          rcases hplace t with ht | ht
          · exact ht
          · rw [ht] at hc
            cases hc
        rw [hsame] at hc ⊢
        exact (h.fine t).frame (hrunning t b (hsame ▸ hc)) (htask t b · (hsame ▸ hc)) rfl
          (fun _ _ => by rw [hstore]) (fun _ _ _ => hslot _) hcancelled
  · exact fun ht hu => h.sole (hblock ht) (hblock hu)

theorem Holds.move (h : Holds T o place) {t : TaskId} {u : Residence × Custody}
    (hrunning : o.running = some t)
    (htask : ∀ v state, v ≠ t → o.task? v = some state → o'.task? v = some state)
    (hnumbered : o'.store.store.Numbered)
    (hsaved : ∀ v b, v ≠ t → (place v).2.block? = some b →
      o'.store.store.saved? b.handle = o.store.store.saved? b.handle)
    (hslot : ∀ v b lost, v ≠ t → (place v).2 = holding b lost →
      o'.slot b.ctx.run = o.slot b.ctx.run)
    (hcancelled : o.cancelled <:+ o'.cancelled) (hself : Fine T o' t u.1 u.2)
    (hsole : ∀ v b b', v ≠ t → u.2.block? = some b → (place v).2.block? = some b' →
      b.handle ≠ b'.handle) : Holds T o' (Function.update place t u) := by
  constructor
  · exact hnumbered
  · intro v
    by_cases hv : v = t
    · subst hv
      rw [Function.update_self]
      exact hself
    · rw [Function.update_of_ne hv]
      refine (h.fine v).frame ?_ (fun state => htask v state hv) rfl (fun b => hsaved v b hv)
        (fun b lost => hslot v b lost hv) hcancelled
      rw [hrunning]
      rintro ⟨⟩
      exact hv rfl
  · intro v w b b' hb hb' hhandle
    by_cases hv : v = t
    · by_cases hw : w = t
      · rw [hv, hw]
      · rw [hv, Function.update_self] at hb
        rw [Function.update_of_ne hw] at hb'
        exact absurd hhandle (hsole w b b' hw hb hb')
    · rw [Function.update_of_ne hv] at hb
      by_cases hw : w = t
      · rw [hw, Function.update_self] at hb'
        exact absurd hhandle.symm (hsole v b' b hv hb' hb)
      · rw [Function.update_of_ne hw] at hb'
        exact h.sole hb hb' hhandle

/-! ## The moves of a task with a snapshot in hand -/

theorem fatal_of_cancelled {b : Block} {e : Effect} {w : Wait} {a : e.Answer}
    (hpermits : Permits T b e) (hw : b.watched = true) (hcancelled : o.isCancelled T = true)
    (hwaits : Outline.Waits e) (polls : o.Polls w o₁ e (.answered a)) : Fatal e a := by
  cases e with
  | request run token request =>
      have htoken : o.isCancelled token = true := Token.isCancelled_of_covers (hpermits hw) hcancelled
      simp only [Outline.Polls, htoken, if_true] at polls
      obtain ⟨⟨i, ha⟩, -⟩ := polls
      cases ha
      trivial
  | sleep token span =>
      cases token with
      | none => exact hpermits.elim
      | some token =>
          have htoken : o.interrupts (some token) = true :=
            Token.isCancelled_of_covers (hpermits hw) hcancelled
          obtain ⟨-, ha | ⟨-, hno⟩⟩ := polls
          · cases ha
            change (!o.interrupts (some token)) = false
            rw [htoken]
            rfl
          · rw [htoken] at hno
            cases hno
  | acquireSlot => exact hpermits.elim
  | awaitRun submission => exact hpermits.elim
  | join run policy group bs => trivial
  | settle run token => trivial
  | _ => exact hwaits.elim

theorem idles_of_cancelled {b : Block} {e : Effect} {w : Wait} {a : e.Answer}
    (hpermits : Permits T b e) (hw : b.watched = true) (hcancelled : o.isCancelled T = true)
    (polls : o.Polls w o₁ e (.answered a)) : Idles T e a := by
  cases e with
  | isCancelled token =>
      intro hcovers
      obtain ⟨ha, -⟩ := polls
      cases ha
      exact Token.isCancelled_of_covers hcovers hcancelled
  | sleep token span => exact fatal_of_cancelled hpermits hw hcancelled trivial polls
  | _ => trivial

theorem not_cancelled_of_polls {b : Block} {e : Effect} {w : Wait} {turn : Turn e.Answer}
    (hpermits : Permits T b e) (hw : b.watched = true) (hcancelled : o.isCancelled T = false)
    (polls : o.Polls w o₁ e turn) : o₁.isCancelled T = false := by
  unfold Outline.isCancelled at hcancelled ⊢
  rcases polls.cancelled with h | ⟨run, policy, group, bs, rfl, h⟩
  · rw [h]
    exact hcancelled
  · have hgroup : group.covers T = false := hpermits hw
    rw [h]
    unfold Token.isCancelled at hcancelled ⊢
    rw [List.any_cons, hgroup, hcancelled]
    rfl

theorem Fine.go {t : TaskId} {r u : Residence} {b : Block} {lost lost' : Bool}
    (h : Fine T o t r (holding b lost)) (hrunning : o'.running = some t)
    (hactive : ∃ p w, o'.task? t = some (.active p w)) (hhome : u.home? = r.home?)
    (hsaved : o'.store.store.saved? b.handle = o.store.store.saved? b.handle)
    (hslot : o'.slot b.ctx.run = o.slot b.ctx.run) (hcancelled : o.cancelled <:+ o'.cancelled)
    (halert : lost' = false → b.watched = true → o'.isCancelled T = false)
    (hlost : lost' = true → lost = false → b.watched = true ∧ o.isCancelled T = true) :
    Fine T o' t u (holding b lost') := by
  have hmono : o.isCancelled T = true → o'.isCancelled T = true := Token.isCancelled_mono hcancelled
  have hl : lost' = true → b.watched = true ∧ o.isCancelled T = true := by
    intro h'
    cases lost with
    | true => exact h.lost (Or.inl rfl)
    | false => exact hlost h' rfl
  constructor
  · exact fun _ => hactive
  · rintro _ ⟨⟩
    rw [hhome]
    exact h.housed rfl
  · rintro _ ⟨⟩
    rw [hsaved]
    exact h.saved rfl
  · rintro _ _ ⟨⟩
    rw [hslot]
    exact h.slot rfl
  · exact fun _ => Or.inl hrunning
  · rintro _ ⟨⟩ hw hc
    rw [halert rfl hw] at hc
    cases hc
  · intro _ _ hc
    cases hc
  · rintro _ (⟨⟨⟩⟩ | hc)
    · exact (hl rfl).imp id hmono
    · cases hc
  · rintro _ ⟨⟩ hw hcovers
    exact hmono (h.unwatched rfl hw hcovers)

/-- The move of a task with a snapshot in hand that leaves the snapshots alone. -/
theorem exists_move {t : TaskId} {r : Residence} {b : Block} {lost : Bool} {e : Effect}
    {next : e.Answer → Program t.Result} {w : Wait} {a : e.Answer}
    (h : Fine T o t r (holding b lost)) (ht : o.task? t = some (.active (.perform e next) w))
    (hpermits : Permits T b e) (he : ¬ Outline.OfSnapshot e)
    (polls : o.Polls w o₁ e (.answered a)) :
    ∃ lost', (protocol T).moves (holding b lost) e a (holding b lost') ∧
      (lost' = false → b.watched = true → o.isCancelled T = false) ∧
      (lost' = true → lost = false → b.watched = true ∧ o.isCancelled T = true) := by
  by_cases hc : lost = false ∧ b.watched = true ∧ o.isCancelled T = true
  · obtain ⟨rfl, hw, hcancelled⟩ := hc
    obtain ⟨e', next', w', ht', hwaits⟩ := h.alert rfl hw hcancelled
    cases ht.symm.trans ht'
    have hfatal := fatal_of_cancelled hpermits hw hcancelled hwaits polls
    refine ⟨true, ?_, by simp, fun _ _ => ⟨hw, hcancelled⟩⟩
    cases e with
    | request run token request => exact Or.inr ⟨rfl, hw, rfl, hfatal⟩
    | sleep token span => exact Or.inr ⟨rfl, hw, rfl, hfatal⟩
    | join run policy group bs => exact Or.inr ⟨rfl, hw, rfl, hfatal⟩
    | settle run token => exact Or.inr ⟨rfl, hw, rfl, hfatal⟩
    | _ => exact hfatal.elim
  · refine ⟨lost, ?_, fun hl hw => ?_, fun hl hl' => ?_⟩
    · have hidle : lost = true → Idles T e a := by
        rintro rfl
        obtain ⟨hw, hcancelled⟩ := h.lost (Or.inl rfl)
        exact idles_of_cancelled hpermits hw hcancelled polls
      cases e with
      | childToken token =>
          obtain ⟨⟨n, ha⟩, -⟩ := polls
          cases ha
          exact ⟨⟨n, rfl⟩, rfl⟩
      | beginTransaction ctx => exact absurd trivial he
      | releaseTransaction run handle => exact absurd trivial he
      | _ => exact Or.inl ⟨rfl, hidle⟩
    · rw [← Bool.not_eq_true]
      exact fun hcancelled => hc ⟨hl, hw, hcancelled⟩
    · rw [hl'] at hl
      cases hl

variable {t : TaskId} {e : Effect} {next : e.Answer → Program t.Result} {w : Wait} {a : e.Answer}

theorem task?_answered (ht : o.task? t = some (.active (.perform e next) w))
    (polls : o.Polls w o₁ e (.answered a)) :
    (o₁.setTask t (.active (next a) .fresh)).task? t = some (.active (next a) .fresh) :=
  o₁.task?_setTask_self _ (by rw [polls.task? ht]; rfl)

theorem cancelled_answered (polls : o.Polls w o₁ e (.answered a)) :
    o.cancelled <:+ (o₁.setTask t (.active (next a) .fresh)).cancelled := by
  rw [Outline.setTask_cancelled]
  exact polls.cancelled_suffix

/-- The running task moves and has the same in hand as before. -/
theorem Holds.keep (h : Holds T o place) {u : Residence × Custody} (hrunning : o.running = some t)
    (polls : o.Polls w o₁ e (.answered a))
    (hsnapshots : o₁.store.store.snapshots = o.store.store.snapshots)
    (htaken : o₁.store.store.taken = o.store.store.taken)
    (hslot : ∀ run, o₁.slot run = o.slot run) (hu : u.2.block? = (place t).2.block?)
    (hself : Fine T (o₁.setTask t (.active (next a) .fresh)) t u.1 u.2) :
    Holds T (o₁.setTask t (.active (next a) .fresh)) (Function.update place t u) := by
  refine h.move hrunning (fun x state hx hs => ?_) ?_ (fun x b _ _ => ?_) (fun x b lost _ _ => ?_)
    (cancelled_answered polls) hself fun x b b' hx hb hb' hhandle => ?_
  · rw [Outline.task?_setTask_of_ne _ _ hx]
    exact polls.task? hs
  · rw [Outline.setTask_store]
    exact h.numbered.congr hsnapshots htaken
  · rw [Outline.setTask_store]
    exact Store.saved?_congr hsnapshots b.handle
  · rw [Outline.setTask_slot]
    exact hslot _
  · rw [hu] at hb
    exact hx (h.sole hb hb' hhandle).symm

theorem Holds.answer_quiet (h : Holds T o place) {u : Residence}
    (hrunning : o.running = some t) (ht : o.task? t = some (.active (.perform e next) w))
    (hallows : (protocol T).allows (place t).2 e) (he : ¬ Outline.OfSnapshot e)
    (polls : o.Polls w o₁ e (.answered a)) (hmove : Residence.protocol.moves (place t).1 e a u) :
    ∃ v, (protocol T).moves (place t).2 e a v ∧
      Holds T (o₁.setTask t (.active (next a) .fresh)) (Function.update place t (u, v)) := by
  obtain ⟨hsnapshots, htaken, hslot⟩ := polls.ledger he
  cases hplace : (place t).2 with
  | free =>
      refine ⟨free, ?_, h.keep hrunning polls hsnapshots htaken hslot (by rw [hplace])
        (Fine.free T _ t u)⟩
      cases e with
      | childToken token =>
          obtain ⟨⟨n, ha⟩, -⟩ := polls
          cases ha
          exact ⟨⟨n, rfl⟩, rfl⟩
      | beginTransaction ctx => exact absurd trivial he
      | _ => rfl
  | released b lost =>
      rw [hplace] at hallows
      cases e with
      | discardSnapshot handle => exact absurd trivial he
      | restoreSnapshot handle => exact absurd trivial he
      | _ => exact hallows.elim
  | holding b lost =>
      have hfine := h.fine t
      rw [hplace] at hallows hfine
      obtain ⟨lost', hm, halert, hlost⟩ := exists_move hfine ht hallows he polls
      refine ⟨holding b lost', hm, h.keep hrunning polls hsnapshots htaken hslot
        (by rw [hplace]; rfl) ?_⟩
      refine hfine.go ?_ ⟨_, _, task?_answered ht polls⟩ ?_ ?_ ?_ (cancelled_answered polls)
        (fun hl hw => ?_) hlost
      · rw [Outline.setTask_running, polls.tasks.2.1, hrunning]
      · refine Residence.home?_of_moves hmove ?_ ?_
        · rintro flow parent rfl
          exact hallows
        · rintro run ending outputs rfl
          exact hallows
      · rw [Outline.setTask_store]
        exact Store.saved?_congr hsnapshots b.handle
      · rw [Outline.setTask_slot]
        exact hslot _
      · unfold Outline.isCancelled
        rw [Outline.setTask_cancelled]
        exact not_cancelled_of_polls hallows hw (halert hl hw) polls

/-- A task that does not wait is not in a watched scope that was cancelled. -/
theorem Fine.calm {r : Residence} {b : Block} (h : Fine T o t r (holding b false))
    (ht : o.task? t = some (.active (.perform e next) w)) (he : ¬ Outline.Waits e)
    (hw : b.watched = true) : o.isCancelled T = false := by
  rw [← Bool.not_eq_true]
  intro hc
  obtain ⟨e', next', w', ht', hwaits⟩ := h.alert rfl hw hc
  cases ht.symm.trans ht'
  exact he hwaits

/-- No snapshot is taken for a run whose slot is taken. -/
theorem Holds.begin_refused (h : Holds T o place) {ctx : Context}
    {next : Except EngineError String → Program t.Result} {e : EngineError}
    {u : Residence} (hrunning : o.running = some t)
    (ht : o.task? t = some (.active (.perform (.beginTransaction ctx) next) w))
    (polls : o.Polls w o (.beginTransaction ctx) (.answered (.error e)))
    (hhome : u.home? = (place t).1.home?) (hfree : ∀ b lost, (place t).2 ≠ released b lost) :
    Holds T (o.setTask t (.active (next (.error e)) .fresh))
      (Function.update place t (u, (place t).2)) := by
  have hself := task?_answered ht polls
  refine h.keep hrunning polls rfl rfl (fun _ => rfl) rfl ?_
  have hfine := h.fine t
  cases hplace : (place t).2 with
  | free => exact Fine.free T _ t u
  | released b lost => exact absurd hplace (hfree b lost)
  | holding b lost =>
      rw [hplace] at hfine
      refine hfine.go ?_ ⟨_, _, hself⟩ hhome ?_ ?_ (cancelled_answered polls) (fun hl hw => ?_)
        fun hl hl' => ?_
      · rw [Outline.setTask_running, hrunning]
      · rw [Outline.setTask_store]
      · rw [Outline.setTask_slot]
      · subst hl
        unfold Outline.isCancelled
        rw [Outline.setTask_cancelled]
        exact hfine.calm ht (fun h => h) hw
      · rw [hl'] at hl
        cases hl

theorem Fine.begun {home : Home} {b : Block} (hrunning : o.running = some t)
    (hactive : ∃ p w, o.task? t = some (.active p w)) (hrun : b.ctx.run = home.run)
    (hsaved : o.store.store.saved? b.handle = some b.saved)
    (hheld : (o.slot b.ctx.run).held = some b.handle)
    (hwatched : b.watched = (T.covers b.ctx.token && !o.isCancelled T)) :
    Fine T o t (.inside home) (holding b false) := by
  constructor
  · exact fun _ => hactive
  · rintro _ ⟨⟩
    exact ⟨home, rfl, hrun.symm⟩
  · rintro _ ⟨⟩
    exact hsaved
  · rintro _ _ ⟨⟩
    exact hheld
  · exact fun _ => Or.inl hrunning
  · rintro _ ⟨⟩ hw hc
    rw [hwatched, hc, Bool.not_true, Bool.and_false] at hw
    cases hw
  · intro _ _ hc
    cases hc
  · rintro _ (hc | hc) <;> cases hc
  · rintro _ ⟨⟩ hw hcovers
    rw [hwatched, hcovers, Bool.true_and] at hw
    simpa using hw

theorem Holds.begin_taken (h : Holds T o place) {ctx : Context} {store : ScriptedStore}
    {next : Except EngineError String → Program t.Result} {handle : String} {home : Home}
    (hrunning : o.running = some t)
    (ht : o.task? t = some (.active (.perform (.beginTransaction ctx) next) w))
    (hempty : (o.slot ctx.run).held = none) (hsnapshot : o.store.snapshot = .ok (handle, store))
    (hrun : ctx.run = home.run) (hopened : home.run < o.runs.length) :
    Holds T ((({ o with store } : Outline).modifyRun ctx.run fun r =>
        { r with slot := ⟨some handle⟩ }).setTask t (.active (next (.ok handle)) .fresh))
      (Function.update place t (.inside home, holding ⟨ctx, handle, o.store.store.collections,
        T.covers ctx.token && !o.isCancelled T⟩ false)) := by
  obtain ⟨rfl, rfl⟩ := ScriptedStore.snapshot_eq_ok hsnapshot
  have hfresh {v : TaskId} {b : Block} (hb : (place v).2.block? = some b) :
      b.handle ≠ snapshotName (o.store.store.taken + 1) := by
    intro he
    have := (h.fine v).saved hb
    rw [he, h.numbered.fresh] at this
    cases this
  refine h.move hrunning (fun v state hv hs => ?_) ?_ (fun v b _ hb => ?_)
    (fun v b lost _ hb => ?_) ?_ ?_ fun v b b' _ hb hb' => ?_
  · rw [Outline.task?_setTask_of_ne _ _ hv]
    exact hs
  · rw [Outline.setTask_store]
    exact h.numbered.snapshot
  · rw [Outline.setTask_store]
    exact Store.saved?_snapshot_of_ne _ (hfresh hb)
  · rw [Outline.setTask_slot]
    refine Outline.slot_modifyRun_of_ne _ _ ?_
    intro he
    have := (h.fine v).slot hb
    rw [he, hempty] at this
    cases this
  · rw [Outline.setTask_cancelled]
    exact List.suffix_rfl
  · refine Fine.begun ((Outline.setTask_running _ _).trans hrunning)
      ⟨_, _, Outline.task?_setTask_self _ _ (Option.isSome_of_eq_some ht)⟩ hrun ?_ ?_ ?_
    · rw [Outline.setTask_store]
      exact Store.saved?_snapshot_self _
    · have hlt : ctx.run < o.runs.length := hrun ▸ hopened
      rw [Outline.setTask_slot]
      exact congrArg TransactionSlot.held (Outline.slot_modifyRun_self _ (fun _ => rfl) hlt)
    · unfold Outline.isCancelled
      rw [Outline.setTask_cancelled]
      rfl
  · cases hb
    exact fun he => hfresh hb' he.symm

theorem Holds.answer_begin (h : Holds T o place) (hopened : ∀ home,
      (place t).1.home? = some home → home.run < o.runs.length) {ctx : Context}
    {next : Except EngineError String → Program t.Result} {a : Except EngineError String}
    {u : Residence} (hrunning : o.running = some t)
    (ht : o.task? t = some (.active (.perform (.beginTransaction ctx) next) w))
    (hallows₁ : Residence.protocol.allows (place t).1 (.beginTransaction ctx))
    (hallows : (protocol T).allows (place t).2 (.beginTransaction ctx))
    (polls : o.Polls w o₁ (.beginTransaction ctx) (.answered a))
    (hmove : Residence.protocol.moves (place t).1 (.beginTransaction ctx) a u) :
    ∃ v, (protocol T).moves (place t).2 (.beginTransaction ctx) a v ∧
      Holds T (o₁.setTask t (.active (next a) .fresh)) (Function.update place t (u, v)) := by
  have hhome : u.home? = (place t).1.home? := Residence.home?_of_moves hmove (by simp) (by simp)
  have hnot : ∀ b lost, (place t).2 ≠ released b lost := by
    intro b lost hb
    rw [hb] at hallows
    exact hallows
  have hpolls := polls
  simp only [Outline.Polls] at polls
  split at polls
  · rename_i handle slot store hbegin
    obtain ⟨ha, rfl⟩ := polls
    cases ha
    obtain ⟨hempty, rfl, hsnapshot⟩ := TransactionSlot.begin_eq_ok hbegin
    cases hplace : (place t).2 with
    | released b lost => exact absurd hplace (hnot b lost)
    | holding b lost =>
        have hheld := (h.fine t).slot hplace
        rw [hplace] at hallows
        rw [show ctx.run = b.ctx.run from hallows, hheld] at hempty
        cases hempty
    | free =>
        cases hin : (place t).1 with
        | inside home =>
            rw [hin] at hallows₁ hmove
            obtain rfl : u = .inside home := hmove
            refine ⟨_, ⟨_, _, fun hw => ?_, rfl⟩, h.begin_taken hrunning ht hempty hsnapshot
              hallows₁.1 (hopened home (by rw [hin]; rfl))⟩
            exact (Bool.and_eq_true_iff.mp hw).1
        | _ =>
            rw [hin] at hallows₁
            exact hallows₁.elim
  · obtain ⟨ha, rfl⟩ := polls
    cases ha
    refine ⟨(place t).2, ?_, h.begin_refused hrunning ht hpolls hhome hnot⟩
    cases hplace : (place t).2 with
    | free => rfl
    | released b lost => exact absurd hplace (hnot b lost)
    | holding b lost => exact ⟨⟨_, rfl⟩, rfl⟩

theorem Fine.release {r u : Residence} {b : Block} {lost : Bool} (h : Fine T o t r (holding b lost))
    (hrunning : o'.running = some t) (hactive : ∃ p w, o'.task? t = some (.active p w))
    (hhome : u.home? = r.home?) (hstore : o'.store = o.store)
    (hempty : (o'.slot b.ctx.run).held = none) (hcancelled : o'.isCancelled T = o.isCancelled T)
    (halert : lost = false → b.watched = true → o.isCancelled T = false) :
    Fine T o' t u (.released b lost) := by
  constructor
  · exact fun _ => hactive
  · rintro _ ⟨⟩
    rw [hhome]
    exact h.housed rfl
  · rintro _ ⟨⟩
    rw [hstore]
    exact h.saved rfl
  · intro _ _ hc
    cases hc
  · intro _ _ hc
    cases hc
  · intro _ hc
    cases hc
  · rintro _ _ ⟨⟩
    exact ⟨hrunning, hempty, fun hl hw => hcancelled.trans (halert hl hw)⟩
  · rintro _ (hc | ⟨⟨⟩⟩)
    · cases hc
    · rw [hcancelled]
      exact h.lost (Or.inl rfl)
  · rintro _ ⟨⟩ hw hcovers
    rw [hcancelled]
    exact h.unwatched rfl hw hcovers

theorem Holds.answer_release (h : Holds T o place) {run : Nat} {handle : String}
    {next : Except EngineError Unit → Program t.Result} {a : Except EngineError Unit}
    {u : Residence} (hrunning : o.running = some t)
    (ht : o.task? t = some (.active (.perform (.releaseTransaction run handle) next) w))
    (hallows : (protocol T).allows (place t).2 (.releaseTransaction run handle))
    (polls : o.Polls w o₁ (.releaseTransaction run handle) (.answered a))
    (hmove : Residence.protocol.moves (place t).1 (.releaseTransaction run handle) a u) :
    ∃ v, (protocol T).moves (place t).2 (.releaseTransaction run handle) a v ∧
      Holds T (o₁.setTask t (.active (next a) .fresh)) (Function.update place t (u, v)) := by
  have hhome : u.home? = (place t).1.home? := Residence.home?_of_moves hmove (by simp) (by simp)
  have hfine := h.fine t
  cases hplace : (place t).2 with
  | free =>
      rw [hplace] at hallows
      exact hallows.elim
  | released b lost =>
      rw [hplace] at hallows
      exact hallows.elim
  | holding b lost =>
      rw [hplace] at hallows hfine
      obtain ⟨hrun, rfl⟩ := hallows
      subst run
      have hself := task?_answered ht polls
      simp only [Outline.Polls, TransactionSlot.release_of_held (hfine.slot rfl)] at polls
      obtain ⟨ha, rfl⟩ := polls
      cases ha
      refine ⟨released b lost, ⟨rfl, rfl⟩, h.move hrunning (fun v state hv hs => ?_) ?_
        (fun v b' _ _ => ?_) (fun v b' lost' hv hb => ?_) ?_ ?_ fun v b₁ b₂ hv hb₁ hb₂ hb => ?_⟩
      · rw [Outline.task?_setTask_of_ne _ _ hv]
        exact hs
      · rw [Outline.setTask_store]
        exact h.numbered
      · rw [Outline.setTask_store]
        rfl
      · rw [Outline.setTask_slot]
        refine Outline.slot_modifyRun_of_ne _ _ fun hr => hv ?_
        have hheld := (h.fine v).slot hb
        rw [hr, hfine.slot rfl] at hheld
        exact h.sole (by rw [hb]; rfl) (by rw [hplace]; rfl) (Option.some.inj hheld).symm
      · rw [Outline.setTask_cancelled]
        exact List.suffix_rfl
      · refine hfine.release ((Outline.setTask_running _ _).trans hrunning) ⟨_, _, hself⟩ hhome
          ?_ ?_ ?_ fun hl hw => ?_
        · rw [Outline.setTask_store]
          rfl
        · rw [Outline.setTask_slot, Outline.slot_modifyRun_empty]
          rfl
        · unfold Outline.isCancelled
          rw [Outline.setTask_cancelled]
          rfl
        · subst hl
          exact hfine.calm ht (fun h => h) hw
      · cases hb₁
        exact hv (h.sole (by rw [hplace]; rfl) hb₂ hb).symm

/-- Giving a snapshot back uses it up, or the store refuses and nothing changes. -/
theorem settled_polls {handle : String} {e : Effect} {turn : Turn e.Answer}
    (polls : o.Polls w o₁ e turn) (he : e = .discardSnapshot handle ∨ e = .restoreSnapshot handle) :
    (o₁.store.store.snapshots = Fields.erase handle o.store.store.snapshots ∨
        o₁.store.store.snapshots = o.store.store.snapshots) ∧
      o₁.store.store.taken = o.store.store.taken ∧ o₁.cancelled = o.cancelled ∧
        ∀ run, o₁.slot run = o.slot run := by
  rcases he with rfl | rfl
  · simp only [Outline.Polls, Outline.Stores] at polls
    split at polls
    · rename_i store hstore
      obtain ⟨-, rfl⟩ := polls
      obtain ⟨-, rfl⟩ := ScriptedStore.discard_eq_ok hstore
      exact ⟨Or.inl rfl, rfl, rfl, fun _ => rfl⟩
    · obtain ⟨-, rfl⟩ := polls
      exact ⟨Or.inr rfl, rfl, rfl, fun _ => rfl⟩
  · simp only [Outline.Polls, Outline.Stores] at polls
    split at polls
    · rename_i store hstore
      obtain ⟨-, rfl⟩ := polls
      obtain ⟨saved, -, rfl⟩ := ScriptedStore.restore_eq_ok hstore
      exact ⟨Or.inl rfl, rfl, rfl, fun _ => rfl⟩
    · obtain ⟨-, rfl⟩ := polls
      exact ⟨Or.inr rfl, rfl, rfl, fun _ => rfl⟩

theorem Holds.answer_settled (h : Holds T o place) {u : Residence} {b : Block} {lost : Bool}
    (hrunning : o.running = some t) (hplace : (place t).2 = released b lost)
    (polls : o.Polls w o₁ e (.answered a))
    (he : e = .discardSnapshot b.handle ∨ e = .restoreSnapshot b.handle) :
    Holds T (o₁.setTask t (.active (next a) .fresh)) (Function.update place t (u, free)) := by
  obtain ⟨hsnapshots, htaken, hcancelled, hslot⟩ := settled_polls polls he
  refine h.move hrunning (fun v state hv hs => ?_) ?_ (fun v b' hv hb => ?_)
    (fun v b' lost' _ _ => ?_) ?_ (Fine.free T _ t u) ?_
  · rw [Outline.task?_setTask_of_ne _ _ hv]
    exact polls.task? hs
  · rw [Outline.setTask_store]
    rcases hsnapshots with hs | hs
    · exact h.numbered.erase hs htaken
    · exact h.numbered.congr hs htaken
  · rw [Outline.setTask_store]
    rcases hsnapshots with hs | hs
    · refine Store.saved?_erase_of_ne hs fun hn => hv ?_
      exact h.sole hb (by rw [hplace]; rfl) hn
    · exact Store.saved?_congr hs _
  · rw [Outline.setTask_slot]
    exact hslot _
  · rw [Outline.setTask_cancelled]
    exact hcancelled ▸ List.suffix_rfl
  · rintro v b₁ b₂ - ⟨⟩

theorem Holds.wait (h : Holds T o place) {w' : Wait} (hrunning : o.running = some t)
    (ht : o.task? t = some (.active (.perform e next) w))
    (hallows : (protocol T).allows (place t).2 e) (polls : o.Polls w o₁ e (.waiting w'))
    (hplace : ∀ v, place' v = place v ∨ (place' v).2 = free) :
    Holds T { o₁.setTask t (.active (.perform e next) w') with running := none } place' := by
  have hwaits := polls.waits
  have he : ¬ Outline.OfSnapshot e := by
    intro he
    cases e <;> first | exact hwaits.elim | exact he.elim
  obtain ⟨hsnapshots, htaken, hslot⟩ := polls.ledger he
  have hcancelled : o.cancelled <:+ (o₁.setTask t (.active (.perform e next) w')).cancelled := by
    rw [Outline.setTask_cancelled]
    exact polls.cancelled_suffix
  have hsaved (handle : String) :
      (o₁.setTask t (.active (.perform e next) w')).store.store.saved? handle =
        o.store.store.saved? handle := by
    rw [Outline.setTask_store]
    exact Store.saved?_congr hsnapshots handle
  have hslots (run : Nat) : (o₁.setTask t (.active (.perform e next) w')).slot run = o.slot run := by
    rw [Outline.setTask_slot]
    exact hslot run
  have hblock {v : TaskId} {b : Block} (hb : (place' v).2.block? = some b) :
      (place v).2.block? = some b := by
    rcases hplace v with hv | hv
    · rwa [hv] at hb
    · rw [hv] at hb
      cases hb
  constructor
  · change (o₁.setTask t (.active (.perform e next) w')).store.store.Numbered
    rw [Outline.setTask_store]
    exact h.numbered.congr hsnapshots htaken
  · intro v
    rcases hplace v with hv | hv
    · rw [hv]
      by_cases hvt : v = t
      · subst hvt
        refine (h.fine v).rest (fun b lost hc => ⟨e, next, w', ?_, hwaits⟩) (fun b lost hc => ?_)
          rfl (fun b _ => hsaved b.handle) (fun b _ _ => hslots b.ctx.run) hcancelled
        · exact o₁.task?_setTask_self _ (Option.isSome_of_eq_some (polls.task? ht))
        · rw [hc] at hallows
          cases e <;> first | exact hwaits.elim | exact hallows.elim
      · refine (h.fine v).frame ?_ (fun state hs => ?_) rfl (fun b _ => hsaved b.handle)
          (fun b _ _ => hslots b.ctx.run) hcancelled
        · rw [hrunning]
          rintro ⟨⟩
          exact hvt rfl
        · exact (o₁.task?_setTask_of_ne _ hvt).trans (polls.task? hs)
    · rw [hv]
      exact Fine.free T _ v _
  · exact fun hb hb' => h.sole (hblock hb) (hblock hb')

theorem Holds.answer (h : Holds T o place) (hopened : ∀ home,
      (place t).1.home? = some home → home.run < o.runs.length) {u : Residence}
    (hrunning : o.running = some t) (ht : o.task? t = some (.active (.perform e next) w))
    (hallows₁ : Residence.protocol.allows (place t).1 e)
    (hallows : (protocol T).allows (place t).2 e) (polls : o.Polls w o₁ e (.answered a))
    (hmove : Residence.protocol.moves (place t).1 e a u) :
    ∃ v, (protocol T).moves (place t).2 e a v ∧
      Holds T (o₁.setTask t (.active (next a) .fresh)) (Function.update place t (u, v)) := by
  cases e with
  | beginTransaction ctx => exact h.answer_begin hopened hrunning ht hallows₁ hallows polls hmove
  | releaseTransaction run handle => exact h.answer_release hrunning ht hallows polls hmove
  | discardSnapshot handle =>
      cases hplace : (place t).2 with
      | released b lost =>
          rw [hplace] at hallows
          obtain ⟨rfl, -⟩ := hallows
          exact ⟨free, rfl, h.answer_settled hrunning hplace polls (Or.inl rfl)⟩
      | _ =>
          rw [hplace] at hallows
          exact hallows.elim
  | restoreSnapshot handle =>
      cases hplace : (place t).2 with
      | released b lost =>
          rw [hplace] at hallows
          obtain rfl : handle = b.handle := hallows
          exact ⟨free, rfl, h.answer_settled hrunning hplace polls (Or.inr rfl)⟩
      | _ =>
          rw [hplace] at hallows
          exact hallows.elim
  | _ => exact h.answer_quiet hrunning ht hallows (fun h => h) polls hmove

theorem Holds.finish (h : Holds T o place) (hrunning : o.running = some t)
    (hfree : (place t).2 = free) (a : t.Result) (order : Nat) :
    Holds T { o.setTask t (.ended a order) with running := none } place := by
  have hne {v : TaskId} {b : Block} (hb : (place v).2.block? = some b) : v ≠ t := by
    rintro rfl
    rw [hfree] at hb
    cases hb
  refine h.frame (fun _ => Or.inl rfl) (fun v b hb => ?_) (fun v b state hb hs => ?_)
    (o.setTask_store _) (o.setTask_slot _) ((o.setTask_cancelled _).symm ▸ List.suffix_rfl)
  · rw [hrunning]
    rintro ⟨⟩
    exact hne hb rfl
  · exact (o.task?_setTask_of_ne _ (hne hb)).trans hs

theorem Holds.begins (h : Holds T o place) {r : Residence} (idle : o.running = none)
    (htask : ∀ v state, v ≠ t → o.task? v = some state → o'.task? v = some state)
    (hstore : o'.store = o.store) (hslot : ∀ run, o'.slot run = o.slot run)
    (hcancelled : o'.cancelled = o.cancelled) :
    Holds T o' (Function.update place t (r, free)) := by
  refine h.frame (fun v => ?_) (fun _ _ _ => by rw [idle]; simp) (fun v b state hb hs => ?_)
    hstore hslot (hcancelled ▸ List.suffix_rfl)
  · by_cases hv : v = t
    · subst hv
      rw [Function.update_self]
      exact Or.inr rfl
    · exact Or.inl (Function.update_of_ne hv _ _)
  · refine htask v state ?_ hs
    rintro rfl
    rw [Function.update_self] at hb
    cases hb

theorem sound (T : Token) (config : Config) :
    Residence.discipline.Extends (discipline T) config Residence.Holds (Holds T) where
  root := rfl
  main h := hosts.errand h
  submission flow inputs token := hosts.submitted config flow inputs token
  branch {u v run policy group bs b} hallows _ hb := by
    obtain ⟨home, -, -, -, hsteps⟩ := Residence.join_allowed hallows
    obtain ⟨ctx, scope, body, collect, rfl, -, -⟩ := hsteps b hb
    refine (Branch.obeys_of_keeps (compositional.sequence body ctx .null free)
      (not_loses_free ctx) scope collect ⟨rfl, trivial⟩).mono fun _ _ hv => hv.1
  pick t h idle := h.frame (fun _ => Or.inl rfl) (fun _ _ _ => by rw [idle]; simp)
    (fun _ _ _ _ => id) rfl (fun _ => rfl) List.suffix_rfl
  cancel tokens h idle := h.frame (fun _ => Or.inl rfl) (fun _ _ _ => by rw [idle]; simp)
    (fun _ _ _ _ => id) rfl (fun _ => rfl) (List.suffix_append _ _)
  stop {o place t} h running inactive := by
    refine h.frame (fun _ => Or.inl rfl) (fun v b hb => ?_) (fun _ _ _ _ => id) rfl
      (fun _ => rfl) List.suffix_rfl
    rw [running]
    rintro ⟨⟩
    obtain ⟨p, w, hp⟩ := (h.fine t).active hb
    exact inactive p w hp
  finish {o place t a w} order h running active hf := h.finish running hf a order
  answer {o o₁ place t e next w a u} hh h running active hallows₁ hallows polls hmove :=
    h.answer (fun home => hh.opened) running active hallows₁ hallows polls hmove
  wait {o o₁ place t e next w w'} hh h running active hallows₁ hallows polls := by
    refine h.wait running active hallows polls fun v => ?_
    refine (Discipline.heirs_cases e w v).imp id ?_
    rintro ⟨b, hb⟩
    rw [hb]
    rfl
  submit {o place} p h idle :=
    h.begins idle (fun _ _ _ hs => Outline.task?_submit_of_some hs _) rfl (fun _ => rfl) rfl
  errand {o place} p h idle ended :=
    h.begins idle (fun _ _ hv hs => (o.task?_main_of_ne _ hv).trans hs) rfl (fun _ => rfl) rfl

end Custody
end FlowEngine
