import FlowEngine.Proofs.Session.Hosting

/-!
# The run that a task belongs to

A task opens a run and owns it until it closes it, or it is a branch of a run from
the beginning. All that it does concerns its own run, in scopes of cancellation below
its own. Only the owner waits for all branches, and it closes the run right after it
has done so.
-/
namespace FlowEngine

open Exec Execution

structure Home where
  run : Nat
  base : Token
  owner : Bool

inductive Residence where
  | outside
  | inside (home : Home)
  | drained (home : Home)
  | closed

namespace Residence

def home? : Residence → Option Home
  | inside home => some home
  | drained home => some home
  | _ => none

def Permits (home : Home) : Effect → Prop
  | .settle run none => run = home.run ∧ home.owner = true
  | .settle run (some t) => run = home.run ∧ home.base.covers t = true
  | .join run _ group bs => run = home.run ∧ home.base.covers group = true ∧
      ∀ b ∈ bs, ∃ ctx scope body collect, b = .steps ctx scope body collect ∧
        ctx.run = home.run ∧ ctx.token = group
  | .note run _ => run = home.run
  | .startSpan ctx _ => ctx.run = home.run ∧ home.base.covers ctx.token = true
  | .endSpan ctx _ _ => ctx.run = home.run
  | .request run token _ => run = home.run ∧ home.base.covers token = true
  | .sleep (some token) _ => home.base.covers token = true
  | .sleep none _ => False
  | .beginTransaction ctx => ctx.run = home.run ∧ home.base.covers ctx.token = true
  | .releaseTransaction run _ => run = home.run
  | .closeRun _ _ _ | .openRun _ _ | .acquireSlot | .releaseSlot | .awaitRun _ => False
  | _ => True

def PermitsDrained (home : Home) : Effect → Prop
  | .settle run none | .closeRun run _ _ => run = home.run ∧ home.owner = true
  | .stopDeadline _ | .isCancelled _ => True
  | _ => False

def protocol : Protocol Residence where
  allows
    | outside, e => match e with
      | .openRun _ _ | .acquireSlot | .awaitRun _ => True
      | _ => False
    | inside home, e => Permits home e
    | drained home, e => PermitsDrained home e
    | closed, e => match e with
      | .releaseSlot => True
      | _ => False
  moves
    | outside, .openRun _ _, (run, token), v => v = inside ⟨run, token, true⟩
    | inside home, .childToken t, a, v => (∃ n, a = t.child n) ∧ v = inside home
    | inside home, .settle _ none, _, v => v = drained home
    | inside home, _, _, v => v = inside home
    | drained home, .settle _ none, _, v => v = drained home
    | drained _, .closeRun _ _ _, _, v => v = closed
    | drained home, _, _, v => v = inside home
    | u, _, _, v => v = u

/-- The discipline of tasks that belong to runs. Nobody ends before it has closed its own run. -/
def discipline : Discipline Residence where
  protocol := protocol
  root := outside
  born
    | .steps ctx _ _ _ => inside ⟨ctx.run, ctx.token, false⟩
    | .timed _ _ _ => outside
  final u := ∀ home, u.home? = some home → home.owner = false

def In (home : Home) (ctx : Context) (u : Residence) : Prop :=
  home.run = ctx.run ∧ home.base.covers ctx.token = true ∧ u = inside home

theorem tolerates : Tolerates protocol In fun _ _ _ => False where
  plain {home ctx u e} he hu := by
    obtain ⟨hrun, hbase, rfl⟩ := hu
    have hstay {p : Prop} : In home ctx (inside home) ∨ False ∧ p := Or.inl ⟨hrun, hbase, rfl⟩
    cases he with
    | childToken =>
        refine ⟨trivial, ?_⟩
        rintro a v ⟨-, rfl⟩
        exact hstay
    | join number policy bs steps =>
        refine ⟨⟨hrun.symm, Token.covers_child _ _ _ hbase, fun b hb => ?_⟩, ?_⟩
        · obtain ⟨scope, body, collect, rfl⟩ := steps b hb
          exact ⟨_, scope, body, collect, rfl, hrun.symm, rfl⟩
        · rintro a v rfl
          exact hstay
    | settle => exact ⟨⟨hrun.symm, hbase⟩, by rintro a v rfl; exact hstay⟩
    | note entry => exact ⟨hrun.symm, by rintro a v rfl; exact hstay⟩
    | endSpan step status => exact ⟨hrun.symm, by rintro a v rfl; exact hstay⟩
    | request request => exact ⟨⟨hrun.symm, hbase⟩, by rintro a v rfl; exact hstay⟩
    | sleep span => exact ⟨hbase, by rintro a v rfl; exact hstay⟩
    | _ => exact ⟨trivial, by rintro a v rfl; exact hstay⟩
  starts {home ctx u v} step hu hmove := by
    obtain ⟨hrun, hbase, rfl⟩ := hu
    obtain rfl := hmove
    exact ⟨⟨hrun.symm, hbase⟩, by rintro a w rfl; exact ⟨hrun, hbase, rfl⟩⟩
  futile _ hu := hu.elim
  child {home ctx u v a} hu hmove := by
    obtain ⟨-, -, rfl⟩ := hu
    exact hmove.1
  narrow {home ctx u} n hu := ⟨hu.1, Token.covers_child _ _ _ hu.2.1, hu.2.2⟩
  widen {home ctx u v} n hu hv := ⟨hu.1, hu.2.1, hv.2.2⟩
  widenFutile _ _ hv := hv.elim

theorem compositional : Compositional fun ctx _ x => ∀ home,
    x.Keeps protocol (In home ctx) fun _ => False := by
  refine tolerates.compositional fun {ctx body handler} id hb hh home => ?_
  refine tolerates.transaction (fun _ h => h) (fun {e u} he hu => ?_) (hb home)
    (fun x hx => hh x hx home) id
  obtain ⟨hrun, hbase, rfl⟩ := hu
  have hstay : In home ctx (inside home) := ⟨hrun, hbase, rfl⟩
  cases he with
  | begin => exact ⟨⟨hrun.symm, hbase⟩, by rintro a v rfl; exact hstay⟩
  | release handle => exact ⟨hrun.symm, by rintro a v rfl; exact hstay⟩
  | discard handle => exact ⟨trivial, by rintro a v rfl; exact hstay⟩
  | restore handle => exact ⟨trivial, by rintro a v rfl; exact hstay⟩

def Owns (ctx : Context) (u : Residence) : Prop :=
  ∃ home, home.owner = true ∧ In home ctx u

def OwnsDrained (ctx : Context) (u : Residence) : Prop :=
  ∃ home, home.owner = true ∧ home.run = ctx.run ∧ home.base.covers ctx.token = true ∧
    u = drained home

theorem hosts : discipline.Hosts Owns OwnsDrained fun u _ => u = closed where
  plain {ctx u e} he hu := by
    obtain ⟨home, howner, hin⟩ := hu
    obtain ⟨hallows, hmoves⟩ := tolerates.plain he hin
    exact ⟨hallows, fun a v hmove => ⟨home, howner, (hmoves a v hmove).resolve_right And.left⟩⟩
  sequence steps ctx last := by
    refine keeps_of_obeys ?_
    rintro u ⟨home, howner, hin⟩
    exact ((compositional.sequence steps ctx last home).obeys (fun _ h => h) hin).mono
      fun v _ hv => ⟨home, howner, hv⟩
  opens flow parent := by
    refine ⟨trivial, ?_⟩
    rintro ⟨run, token⟩ u rfl limit
    exact ⟨_, rfl, rfl, Token.covers_self token, rfl⟩
  settles {ctx u} hu := by
    obtain ⟨home, howner, hrun, hbase, rfl⟩ | ⟨home, howner, hrun, hbase, rfl⟩ := hu
    · refine ⟨⟨hrun.symm, howner⟩, ?_⟩
      rintro a v rfl
      exact ⟨home, howner, hrun, hbase, rfl⟩
    · refine ⟨⟨hrun.symm, howner⟩, ?_⟩
      rintro a v rfl
      exact ⟨home, howner, hrun, hbase, rfl⟩
  stops {ctx u} deadline hu := by
    obtain ⟨home, howner, hrun, hbase, rfl⟩ := hu
    refine ⟨trivial, ?_⟩
    rintro a v rfl
    exact ⟨home, howner, hrun, hbase, rfl⟩
  looks {ctx u} hu := by
    obtain ⟨home, howner, hrun, hbase, rfl⟩ := hu
    refine ⟨trivial, ?_⟩
    rintro a v rfl
    exact ⟨home, howner, hrun, hbase, rfl⟩
  closes {ctx u} ending outputs hu := by
    obtain ⟨home, howner, hrun, hbase, rfl⟩ := hu
    exact ⟨⟨hrun.symm, howner⟩, fun _ _ hmove => hmove⟩
  acquires := ⟨trivial, fun _ _ h => h⟩
  releases {u result} hu := by
    subst hu
    exact ⟨trivial, fun _ _ h => h⟩
  ends {u result} hu := by
    subst hu
    exact nofun
  awaits submission := by
    refine ⟨trivial, fun a v hmove => ?_⟩
    obtain rfl : v = outside := hmove
    exact nofun

theorem branch {u : Residence} {run : Nat} {policy : JoinPolicy} {group : Token} {bs : List Branch}
    {b : Branch} (hallows : protocol.allows u (.join run policy group bs)) (hb : b ∈ bs) :
    discipline.Obeys b.program (discipline.born b) := by
  cases u with
  | inside home =>
      obtain ⟨ctx, scope, body, collect, rfl, -, -⟩ := hallows.2.2 b hb
      refine (Branch.obeys_of_keeps (compositional.sequence body ctx .null _) (fun _ h => h) scope collect
        ⟨rfl, Token.covers_self _, rfl⟩).mono fun v _ hv home hhome => ?_
      obtain ⟨-, -, rfl⟩ := hv
      cases hhome
      rfl
  | _ => exact hallows.elim

theorem home?_of_moves {u v : Residence} {e : Effect} {a : e.Answer}
    (h : protocol.moves u e a v) (ho : ∀ flow parent, e ≠ .openRun flow parent)
    (hc : ∀ run ending outputs, e ≠ .closeRun run ending outputs) : v.home? = u.home? := by
  cases u with
  | outside =>
      cases e with
      | openRun flow parent => exact absurd rfl (ho _ _)
      | _ => rw [show v = outside from h]
  | inside home =>
      cases e with
      | childToken token =>
          obtain ⟨-, rfl⟩ := h
          rfl
      | settle run token =>
          cases token with
          | none =>
              obtain rfl : v = drained home := h
              rfl
          | some token => rw [show v = inside home from h]
      | _ => rw [show v = inside home from h]
  | drained home =>
      cases e with
      | closeRun run ending outputs => exact absurd rfl (hc _ _ _)
      | settle run token =>
          cases token with
          | none => rw [show v = drained home from h]
          | some token =>
              obtain rfl : v = inside home := h
              rfl
      | _ =>
          obtain rfl : v = inside home := h
          rfl
  | closed => rw [show v = closed from h]

end Residence
end FlowEngine
