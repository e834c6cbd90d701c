import FlowEngine.Proofs.Session.Hosting

/-!
# The snapshot that a task has in hand

A task that begins a transaction has a snapshot in hand until it has given it back: it
releases the slot of its run and then restores or discards the snapshot. While a task
has one in hand it cannot begin another. If a scope above the transaction is cancelled
in the meantime, the body is bound to fail, and the snapshot is not discarded.
-/
namespace FlowEngine

open Exec Execution

structure Block where
  ctx : Context
  handle : String
  saved : Collections
  /-- Whether it began in a scope that is watched, before the scope was cancelled. -/
  watched : Bool

/-- The snapshot that a task has in hand. It is lost when the task, in a watched scope,
was interrupted. -/
inductive Custody where
  | free
  | holding (b : Block) (lost : Bool)
  | released (b : Block) (lost : Bool)

namespace Custody

def block? : Custody → Option Block
  | free => none
  | holding b _ => some b
  | released b _ => some b

def Permits (T : Token) (b : Block) : Effect → Prop
  | .releaseTransaction run handle => run = b.ctx.run ∧ handle = b.handle
  | .beginTransaction ctx => ctx.run = b.ctx.run
  | .request _ token _ => b.watched = true → T.covers token = true
  | .sleep (some token) _ => b.watched = true → T.covers token = true
  | .join _ _ group _ => b.watched = true → group.covers T = false
  | .sleep none _ | .settle _ none | .discardSnapshot _ | .restoreSnapshot _ | .openRun _ _
  | .closeRun _ _ _ | .acquireSlot | .releaseSlot | .awaitRun _ => False
  | _ => True

def Idles (T : Token) : (e : Effect) → e.Answer → Prop
  | .isCancelled token, cancelled => T.covers token = true → cancelled = true
  | .sleep _ _, waited => waited = false
  | _, _ => True

def protocol (T : Token) : Protocol Custody where
  allows
    | free, e => match e with
      | .releaseTransaction _ _ | .discardSnapshot _ | .restoreSnapshot _ => False
      | _ => True
    | holding b _, e => Permits T b e
    | released b lost, e => match e with
      | .discardSnapshot handle => handle = b.handle ∧ lost = false
      | .restoreSnapshot handle => handle = b.handle
      | _ => False
  moves
    | free, .beginTransaction ctx, .ok handle, v =>
      ∃ saved watched, (watched = true → T.covers ctx.token = true) ∧
        v = holding ⟨ctx, handle, saved, watched⟩ false
    | free, .childToken t, a, v => (∃ n, a = t.child n) ∧ v = free
    | free, _, _, v => v = free
    | holding b lost, .releaseTransaction _ _, a, v => a = .ok () ∧ v = released b lost
    | holding b lost, .beginTransaction _, a, v => (∃ e, a = .error e) ∧ v = holding b lost
    | holding b lost, .childToken t, a, v => (∃ n, a = t.child n) ∧ v = holding b lost
    | holding b lost, e, a, v => v = holding b lost ∧ (lost = true → Idles T e a) ∨
        v = holding b true ∧ b.watched = true ∧ lost = false ∧ Fatal e a
    | released _ _, _, _, v => v = free

def discipline (T : Token) : Discipline Custody where
  protocol := protocol T
  root := free
  born _ := free
  final u := u = free

variable {T : Token}

def Fits (T : Token) (ctx : Context) : Custody → Prop
  | free => True
  | holding b lost => b.ctx.run = ctx.run ∧ lost = false ∧
      (b.watched = true → T.covers ctx.token = true)
  | released _ _ => False

def Stays (T : Token) (i : Custody) (ctx : Context) (u : Custody) : Prop := u = i ∧ Fits T ctx i

def Loses (T : Token) (i : Custody) (ctx : Context) (u : Custody) : Prop :=
  ∃ b, i = holding b false ∧ u = holding b true ∧ b.ctx.run = ctx.run ∧ b.watched = true ∧
    T.covers ctx.token = true

theorem not_loses_free (ctx : Context) (u : Custody) : ¬ Loses T free ctx u := by
  rintro ⟨b, h, -⟩
  cases h

end Custody

theorem Token.not_covers_of_child {T t : Token} (h : T.covers t = true) (n : Nat) :
    (t.child n).covers T = false := by
  rw [← Bool.not_eq_true]
  intro hc
  simp only [covers, List.isSuffixOf_iff_suffix] at h hc
  have h₁ := h.length_le
  have h₂ := hc.length_le
  simp only [child, List.length_cons] at h₂
  omega

namespace Custody

variable {T : Token}

theorem permits_plain {b : Block} {ctx : Context} {e : Effect} (he : Plain ctx e)
    (hcovers : b.watched = true → T.covers ctx.token = true) : Permits T b e := by
  cases he with
  | request request => exact hcovers
  | sleep span => exact hcovers
  | join number policy bs steps =>
      exact fun hw => Token.not_covers_of_child (hcovers hw) number
  | _ => trivial

theorem tolerates : Tolerates (protocol T) (Stays T) (Loses T) where
  plain {i ctx u e} he hu := by
    obtain ⟨rfl, hfits⟩ := hu
    cases u with
    | free =>
        refine ⟨by cases he <;> trivial, fun a v hmove => Or.inl ⟨?_, trivial⟩⟩
        cases he with
        | childToken => exact hmove.2
        | _ => exact hmove
    | released b lost => exact hfits.elim
    | holding b lost =>
        obtain ⟨hrun, rfl, hcovers⟩ := hfits
        refine ⟨permits_plain he hcovers, fun a v hmove => ?_⟩
        have hgo (h : v = holding b false ∧ (false = true → Idles T e a) ∨
            v = holding b true ∧ b.watched = true ∧ false = false ∧ Fatal e a) :
            Stays T (holding b false) ctx v ∨ Loses T (holding b false) ctx v ∧ Fatal e a := by
          rcases h with ⟨rfl, -⟩ | ⟨rfl, hw, -, hfatal⟩
          · exact Or.inl ⟨rfl, hrun, rfl, hcovers⟩
          · exact Or.inr ⟨⟨b, rfl, rfl, hrun, hw, hcovers hw⟩, hfatal⟩
        cases he with
        | childToken => exact Or.inl ⟨hmove.2, hrun, rfl, hcovers⟩
        | _ => exact hgo hmove
  starts {i ctx u v} step hu hmove := by
    obtain ⟨rfl, hfits⟩ := hu
    cases u with
    | free =>
        obtain rfl : v = free := hmove
        exact ⟨trivial, fun a w hmove => ⟨hmove, trivial⟩⟩
    | released b lost => exact hfits.elim
    | holding b lost =>
        obtain ⟨hrun, rfl, hcovers⟩ := hfits
        rcases hmove with ⟨rfl, -⟩ | ⟨-, -, -, hfatal⟩
        · refine ⟨trivial, fun a w hmove => ?_⟩
          rcases hmove with ⟨rfl, -⟩ | ⟨-, -, -, hfatal⟩
          · exact ⟨rfl, hrun, rfl, hcovers⟩
          · exact hfatal.elim
        · exact hfatal.elim
  futile {i ctx u e} he hu := by
    obtain ⟨b, rfl, rfl, hrun, hw, hcovers⟩ := hu
    refine ⟨permits_plain he fun _ => hcovers, fun a v hmove => ?_⟩
    have hgo (h : v = holding b true ∧ (true = true → Idles T e a) ∨
        v = holding b true ∧ b.watched = true ∧ true = false ∧ Fatal e a) :
        Loses T (holding b false) ctx v ∧ Idles T e a := by
      rcases h with ⟨rfl, hidle⟩ | ⟨-, -, h, -⟩
      · exact ⟨⟨b, rfl, rfl, hrun, hw, hcovers⟩, hidle rfl⟩
      · cases h
    cases he with
    | childToken => exact ⟨⟨b, rfl, hmove.2, hrun, hw, hcovers⟩, trivial⟩
    | isCancelled => exact ⟨(hgo hmove).1, (hgo hmove).2 hcovers⟩
    | sleep span => exact hgo hmove
    | _ => exact ⟨(hgo hmove).1, trivial⟩
  child {i ctx u v a} hu hmove := by
    obtain ⟨rfl, hfits⟩ := hu
    cases u with
    | released b lost => exact hfits.elim
    | _ => exact hmove.1
  narrow {i ctx u} n hu := by
    obtain ⟨rfl, hfits⟩ := hu
    cases u with
    | holding b lost =>
        obtain ⟨hrun, hlost, hcovers⟩ := hfits
        exact ⟨rfl, hrun, hlost, fun hw => Token.covers_child _ _ _ (hcovers hw)⟩
    | _ => exact ⟨rfl, hfits⟩
  widen {i ctx u v} n hu hv := ⟨hv.1, hu.2⟩
  widenFutile {i ctx u v} n hu hv := by
    obtain ⟨b, rfl, rfl, hrun, hw, -⟩ := hv
    exact ⟨b, rfl, rfl, hrun, hw, hu.2.2.2 hw⟩

/-- Waiting for abandoned branches with a snapshot in hand. -/
theorem obeys_settle {b : Block} {lost : Bool} {ctx : Context} {Q : Custody → Except Failure Unit → Prop}
    (hQ : ∀ lost', (lost' = lost ∨ lost' = true ∧ b.watched = true) →
      Q (holding b lost') (.ok ())) :
    (settle ctx).Obeys (protocol T) Q (holding b lost) := by
  refine obeys_bind (obeys_ask.mpr ⟨trivial, fun a v hmove => obeys_pure.mpr ?_⟩)
  rcases hmove with ⟨rfl, -⟩ | ⟨rfl, hw, -, -⟩
  · exact hQ lost (Or.inl rfl)
  · exact hQ true (Or.inr ⟨rfl, hw⟩)

theorem transaction_nested {b : Block} {ctx : Context} (hrun : b.ctx.run = ctx.run)
    (hcovers : b.watched = true → T.covers ctx.token = true) (id : String) (body : Exec Json)
    (handler : Option (Exec Json)) (u : Custody) (hu : Stays T (holding b false) ctx u) :
    (transaction ctx id body handler).Obeys (protocol T)
      (fun v r => Stays T (holding b false) ctx v ∨
        Loses T (holding b false) ctx v ∧ ∃ f, r = .error f) u := by
  obtain ⟨rfl, hfits⟩ := hu
  refine obeys_bind (obeys_settle fun lost hlost => ?_)
  refine obeys_bind (obeys_ask.mpr ⟨hrun.symm, fun begun v hmove => ?_⟩)
  obtain ⟨⟨e, rfl⟩, rfl⟩ := hmove
  refine obeys_bind (obeys_orFail.mpr ?_)
  rcases hlost with rfl | ⟨rfl, hw⟩
  · exact Or.inl ⟨rfl, hfits⟩
  · exact Or.inr ⟨⟨b, rfl, rfl, hrun, hw, hcovers hw⟩, _, rfl⟩

theorem obeys_commit {saved : Collections} {watched : Bool} (ctx : Context) (handle : String) :
    (commit ctx handle).Obeys (protocol T) (fun v _ => v = free)
      (holding ⟨ctx, handle, saved, watched⟩ false) := by
  refine obeys_bind (obeys_ask.mpr ⟨⟨rfl, rfl⟩, fun released v hmove => ?_⟩)
  obtain ⟨rfl, rfl⟩ := hmove
  refine obeys_bind (obeys_orFail.mpr ?_)
  exact obeys_bind (obeys_ask.mpr ⟨⟨rfl, rfl⟩, fun discarded v hmove => obeys_orFail.mpr hmove⟩)

theorem obeys_rollback {saved : Collections} {watched : Bool} (lost : Bool) (ctx : Context)
    (handle : String) : (rollback ctx handle).Obeys (protocol T) (fun v _ => v = free)
      (holding ⟨ctx, handle, saved, watched⟩ lost) := by
  refine obeys_bind (obeys_ask.mpr ⟨⟨rfl, rfl⟩, fun released v hmove => ?_⟩)
  obtain ⟨rfl, rfl⟩ := hmove
  exact obeys_bind (obeys_ask.mpr ⟨rfl, fun restored v hmove => obeys_pure.mpr hmove⟩)

theorem obeys_undo {saved : Collections} {watched : Bool} (lost : Bool) {ctx : Context}
    {handler : Option (Exec Json)}
    (hh : ∀ x ∈ handler, ∀ i, x.Keeps (protocol T) (Stays T i ctx) (Loses T i ctx))
    (id handle : String) (f : Failure) :
    (undo ctx id handle handler f).Obeys (protocol T) (fun v _ => v = free)
      (holding ⟨ctx, handle, saved, watched⟩ lost) := by
  refine obeys_bind (obeys_settle fun lost' _ => ?_)
  refine obeys_bind ((obeys_rollback lost' ctx handle).mono fun v r hv => ?_)
  subst hv
  cases r with
  | error e => rfl
  | ok restored =>
      cases restored with
      | error e => exact obeys_throw.mpr rfl
      | ok _ =>
          refine obeys_bind (obeys_ask.mpr ⟨trivial, fun _ v hmove => ?_⟩)
          obtain rfl : v = free := hmove
          have hrecover := tolerates.recover (not_loses_free ctx) (fun x hx => hh x hx free) id
            f.rolledBack
          exact (hrecover.obeys (not_loses_free ctx) ⟨rfl, trivial⟩).mono fun v _ hv => hv.1

theorem transaction_free {ctx : Context} {body : Exec Json} {handler : Option (Exec Json)}
    (id : String) (hb : ∀ i, body.Keeps (protocol T) (Stays T i ctx) (Loses T i ctx))
    (hh : ∀ x ∈ handler, ∀ i, x.Keeps (protocol T) (Stays T i ctx) (Loses T i ctx)) :
    (transaction ctx id body handler).Obeys (protocol T) (fun v _ => v = free) free := by
  refine obeys_bind (obeys_bind (obeys_ask.mpr ⟨trivial, fun settled v hmove => ?_⟩))
  obtain rfl : v = free := hmove
  refine obeys_pure.mpr (obeys_bind (obeys_ask.mpr ⟨trivial, fun begun v hmove => ?_⟩))
  cases begun with
  | error e =>
      obtain rfl : v = free := hmove
      exact obeys_bind (obeys_orFail.mpr rfl)
  | ok handle =>
      obtain ⟨saved, watched, hcovers, rfl⟩ := hmove
      have hbody := hb (holding ⟨ctx, handle, saved, watched⟩ false) _ ⟨rfl, rfl, rfl, hcovers⟩
      refine obeys_bind (obeys_orFail.mpr (obeys_bind (obeys_outcome (obeys_inFrame ?_))))
      refine hbody.mono fun v r hv => ?_
      rcases hv with ⟨rfl, -⟩ | ⟨⟨b, ⟨⟩, rfl, -⟩, f, rfl⟩
      · cases r with
        | error f => exact obeys_undo false hh id handle f
        | ok output =>
            refine obeys_bind ((obeys_commit ctx handle).mono fun v r hv => ?_)
            cases r with
            | ok _ => exact obeys_pure.mpr hv
            | error e => exact hv
      · exact obeys_undo true hh id handle f

theorem compositional : Compositional fun ctx _ x => ∀ i,
    x.Keeps (protocol T) (Stays T i ctx) (Loses T i ctx) := by
  refine tolerates.compositional fun {ctx body handler} id hb hh i => ?_
  cases i with
  | free =>
      rintro u ⟨rfl, -⟩
      exact (transaction_free id hb hh).mono fun v _ hv => Or.inl ⟨hv, trivial⟩
  | holding b lost =>
      intro u hu
      obtain ⟨hrun, rfl, hcovers⟩ := hu.2
      exact transaction_nested hrun hcovers id body handler u hu
  | released b lost => exact fun u hu => hu.2.elim

theorem hosts :
    (discipline T).Hosts (fun _ u => u = free) (fun _ u => u = free) (fun u _ => u = free) where
  plain {ctx u e} he hu := by
    subst hu
    obtain ⟨hallows, hmoves⟩ := (tolerates (T := T)).plain (i := free) he ⟨rfl, trivial⟩
    refine ⟨hallows, fun a v hmove => ?_⟩
    exact ((hmoves a v hmove).resolve_right fun h => not_loses_free _ _ h.1).1
  sequence steps ctx last := by
    refine keeps_of_obeys ?_
    rintro u rfl
    exact ((compositional.sequence steps ctx last free).obeys (not_loses_free ctx)
      ⟨rfl, trivial⟩).mono fun v _ hv => hv.1
  opens flow parent := ⟨trivial, fun _ _ h _ => h⟩
  settles {ctx u} hu := by
    obtain rfl | rfl := hu <;> exact ⟨trivial, fun _ _ h => h⟩
  stops {ctx u} deadline hu := by
    subst hu
    exact ⟨trivial, fun _ _ h => h⟩
  looks {ctx u} hu := by
    subst hu
    exact ⟨trivial, fun _ _ h => h⟩
  closes {ctx u} ending outputs hu := by
    subst hu
    exact ⟨trivial, fun _ _ h => h⟩
  acquires := ⟨trivial, fun _ _ h => h⟩
  releases {u result} hu := by
    subst hu
    exact ⟨trivial, fun _ _ h => h⟩
  ends hu := hu
  awaits submission := ⟨trivial, fun _ _ h => h⟩

end Custody
end FlowEngine
