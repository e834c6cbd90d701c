import FlowEngine.Proofs.Format.Fields
import FlowEngine.Proofs.Json.Tables
import FlowEngine.Proofs.Run.Retrying
import FlowEngine.Proofs.Scope.Steps

/-!
# Loops

A loop knows all its rounds when it begins: what it iterates over is evaluated once. The history of a
loop is cut where its rounds end. Each round runs the body in a frame of its own, and nothing that is
bound there is left when the next one begins.
-/
namespace FlowEngine

open Exec Execution

/-! ## Rounds -/

/-- What the frame of a round binds besides its position, or why the round cannot begin. -/
inductive LoopBinding.Unpacks : LoopBinding → Json → Except Control.Fault (List Control.Binding) → Prop
  where
  | whole (name : String) (item : Json) : Unpacks (.single name) item (.ok [(name, item)])
  | list {names : List String} {values : List Json} (length : values.length = names.length) :
      Unpacks (.destructure names) (.arr values) (.ok (names.zip values))
  | object (names : List String) (fields : List (String × Json)) :
      Unpacks (.destructure names) (.obj fields)
        (.ok (names.map fun name => (name, (Fields.get? name fields).getD .null)))
  | refused {names : List String} {item : Json}
      (list : ∀ values, item = .arr values → values.length ≠ names.length)
      (object : ∀ fields, item ≠ .obj fields) :
      Unpacks (.destructure names) item (.error (.notDestructurable item names.length))

/-- The elements of a collection in the order in which it stores them; the fields of an object are
stored in the order of their keys. -/
inductive Json.Elements : Json → List Json → Prop where
  | list (items : List Json) : Elements (.arr items) items
  | object (fields : List (String × Json)) :
      Elements (.obj fields) (fields.map fun field => .arr [.str field.1, field.2])

/-- What the frames of the rounds of a loop bind, one after the other. A round without bindings is one
that cannot begin. -/
abbrev Rounds := List (Except Control.Fault (List Control.Binding))

/-- What an action loops over in a scope chain. -/
inductive Action.LoopsOver (s : Scope) : Action → List Step → Rounds → Prop where
  | times {count : Expr} {v : Json} {n : Nat} (counter : Option String) (body : List Step)
      (evaluated : Control.evaluate count s = .ok v) (counts : Control.loopCount v = .ok n) :
      LoopsOver s (.repeatTimes count counter body) body
        ((List.range n).map fun i => .ok (counter.toList.map fun name => (name, Json.ofNat (i + 1))))
  | each {collection : Expr} {v : Json} {items : List Json} {binding : LoopBinding}
      {index : Option String} {unpacked : Rounds} (body : List Step)
      (evaluated : Control.evaluate collection s = .ok v) (elements : v.Elements items)
      (distinct : (binding.names ++ index.toList).Nodup)
      (unpacks : List.Forall₂ binding.Unpacks items unpacked) :
      LoopsOver s (.repeatForEach collection binding index body) body
        (unpacked.mapIdx fun i round => round.map
          (· ++ index.toList.map fun name => (name, Json.ofNat i)))

/-- A frame of a round: it binds what the round says and nothing else. -/
structure Frame.Opens (f : Frame) (bindings : List Control.Binding) : Prop where
  kind : f.kind = .loopIteration
  binds {name : String} {v : Json} : Fields.get? name f.bindings = some v ↔ (name, v) ∈ bindings

/-- What was bound in frames over a scope chain is gone: its frames are there, each of them binds the
names that it bound, and what is shadowed there was not touched. -/
structure Scope.Outlasts (s s' : Scope) : Prop where
  names (name : String) :
    (s'.frames.map fun f => (f.kind, f.binds name)) = s.frames.map fun f => (f.kind, f.binds name)
  keeps : s.Keeps s'

/-- The first rounds of a loop are complete: their parts of the history, their values, the rounds that
are left, and the scope chain. -/
inductive Iterates (ctx : Context) (body : List Step) (rounds : Rounds) (s : Scope) :
    List Deed → List Json → Rounds → Scope → Prop where
  | start : Iterates ctx body rounds s [] [] rounds s
  | next {before during : List Deed} {values : List Json} {bindings : List Control.Binding}
      {left : Rounds} {f : Frame} {t u : Scope} {v : Json}
      (iterates : Iterates ctx body rounds s before values (.ok bindings :: left) t)
      (opens : f.Opens bindings)
      (ran : ((runSequence body ctx .null).on (t.under f)).Follows during (.pure (.ok v, u)))
      (outlasts : s.Outlasts u.leave) :
      Iterates ctx body rounds s (before ++ during) (values ++ [v]) left u.leave

/-- How far a loop has got. -/
inductive Looped (ctx : Context) (body : List Step) (rounds : Rounds) (s : Scope) :
    List Deed → Program (Except Failure Reached × Scope) → Prop where
  /-- All rounds are complete, and the loop gives their values. -/
  | finished {deeds : List Deed} {values : List Json} {t : Scope}
      (iterates : Iterates ctx body rounds s deeds values [] t) :
      Looped ctx body rounds s deeds (.pure (.ok (.value (.arr values)), t))
  | within {before during : List Deed} {values : List Json} {bindings : List Control.Binding}
      {left : Rounds} {f : Frame} {t : Scope} {e : Effect}
      {next : e.Answer → Program (Except Failure Json × Scope)}
      {next' : e.Answer → Program (Except Failure Reached × Scope)}
      (iterates : Iterates ctx body rounds s before values (.ok bindings :: left) t)
      (opens : f.Opens bindings)
      (ran : ((runSequence body ctx .null).on (t.under f)).Follows during (.perform e next)) :
      Looped ctx body rounds s (before ++ during) (.perform e next')
  /-- A round has failed, and no other one begins. -/
  | failed {before during : List Deed} {values : List Json} {bindings : List Control.Binding}
      {left : Rounds} {f : Frame} {t u : Scope} {failure : Failure}
      (iterates : Iterates ctx body rounds s before values (.ok bindings :: left) t)
      (opens : f.Opens bindings)
      (ran : ((runSequence body ctx .null).on (t.under f)).Follows during (.pure (.error failure, u)))
      (outlasts : s.Outlasts u.leave) :
      Looped ctx body rounds s (before ++ during) (.pure (.error failure, u.leave))
  /-- A round cannot begin, and no other one does. -/
  | refused {deeds : List Deed} {values : List Json} {fault : Control.Fault} {left : Rounds} {t : Scope}
      (iterates : Iterates ctx body rounds s deeds values (.error fault :: left) t) :
      Looped ctx body rounds s deeds (.pure (.error fault.toError.toFailure, t))

/-! ## Scope chains -/

namespace Scope

variable {s t u : Scope}

namespace Outlasts

theorem refl (s : Scope) : s.Outlasts s := ⟨fun _ => rfl, .refl s⟩

theorem trans (h : s.Outlasts t) (h' : t.Outlasts u) : s.Outlasts u :=
  ⟨fun name => (h'.names name).trans (h.names name), h.keeps.trans h'.keeps⟩

/-- Whatever is done in a frame, the frames under it bind the names that they bound. -/
theorem of_under {f : Frame} (h : (s.under f).Keeps u) : s.Outlasts u.leave := by
  have hkeeps : s.Keeps u.leave := h.leave (s.frames_under f)
  refine ⟨fun name => ?_, hkeeps⟩
  have hinner : u.inner ≠ [] := by
    intro hnil
    have := h.depth_eq
    simp [depth, under, hnil] at this
  obtain ⟨g, inner, hcons⟩ := List.exists_cons_of_ne_nil hinner
  have hframes : u.frames = g :: u.leave.frames := by simp [frames, leave, hcons]
  refine List.ext_getElem? fun i => ?_
  rw [List.getElem?_map, List.getElem?_map]
  cases hf : s.frames[i]? with
  | none =>
      have hlength : u.leave.frames.length = s.frames.length := by
        simpa using congrArg List.length hkeeps.kinds
      rw [List.getElem?_eq_none_iff] at hf
      rw [List.getElem?_eq_none_iff.mpr (hlength ▸ hf)]
  | some g =>
      obtain ⟨g', hg'⟩ := hkeeps.exists_frame hf
      have hkind : g'.kind = g.kind := by
        have := congrArg (fun l => l[i]?) hkeeps.kinds
        simpa [hf, hg'] using this
      have hbinds : g'.binds name = g.binds name := by
        refine h.outer (Nat.succ_pos i) ?_ ?_ name
        · rw [frames_under, List.getElem?_cons_succ, hf]
        · rw [hframes, List.getElem?_cons_succ, hg']
      rw [hg', Option.map_some, Option.map_some, hkind, hbinds]

end Outlasts

theorem Arises.under (h : s.Arises) (kind : ScopeKind) (bindings : List Control.Binding) :
    (s.under ⟨kind, Fields.ofList bindings⟩).Arises :=
  declareAll_push bindings kind s ▸ h.enter kind bindings

end Scope

theorem Frame.opens_ofList {bindings : List Control.Binding}
    (h : (bindings.map Prod.fst).Nodup) :
    Frame.Opens ⟨.loopIteration, Fields.ofList bindings⟩ bindings where
  kind := rfl
  binds := by
    intro name v
    refine ⟨fun hget => ?_, fun hmem => Fields.get?_insertAll_of_mem h hmem []⟩
    rcases Fields.mem_of_get?_insertAll hget with hmem | hnone
    · exact hmem
    · cases hnone

/-! ## What is bound for an element -/

namespace LoopBinding

theorem takeFields_eq {names : List String} (h : names.Nodup) (fields : List (String × Json)) :
    Control.loopBindings.takeFields names fields =
      names.map fun name => (name, (Fields.get? name fields).getD .null) := by
  induction names generalizing fields with
  | nil => rfl
  | cons name rest ih =>
      obtain ⟨hname, hrest⟩ := List.nodup_cons.mp h
      rw [Control.loopBindings.takeFields, ih hrest, List.map_cons]
      refine congrArg _ (List.map_congr_left fun other hother => ?_)
      have hne : other ≠ name := by
        rintro rfl
        exact hname hother
      rw [Fields.get?_erase_of_ne _ hne]

theorem Unpacks.eq {binding : LoopBinding} {item : Json}
    {round : Except Control.Fault (List Control.Binding)} (h : binding.Unpacks item round)
    (hdistinct : binding.names.Nodup) : Control.loopBindings binding item = round := by
  cases h with
  | whole name item => rfl
  | list length => exact if_pos length
  | object names fields => exact congrArg _ (takeFields_eq hdistinct fields)
  | @refused names item list object =>
      cases item with
      | arr values => exact if_neg (list values rfl)
      | obj fields => exact absurd rfl (object fields)
      | _ => rfl

theorem Unpacks.names_eq {binding : LoopBinding} {item : Json} {bindings : List Control.Binding}
    (h : binding.Unpacks item (.ok bindings)) : bindings.map Prod.fst = binding.names := by
  cases h with
  | whole name item => rfl
  | list length => exact List.map_fst_zip (Nat.le_of_eq length.symm)
  | object names fields => simp [LoopBinding.names, Function.comp_def]

theorem exists_unpacks (binding : LoopBinding) (item : Json) : ∃ round, binding.Unpacks item round := by
  cases binding with
  | single name => exact ⟨_, .whole name item⟩
  | destructure names =>
      cases item with
      | obj fields => exact ⟨_, .object names fields⟩
      | arr values =>
          by_cases length : values.length = names.length
          · exact ⟨_, .list length⟩
          · refine ⟨_, .refused ?_ nofun⟩
            rintro _ ⟨⟩
            exact length
      | _ => exact ⟨_, .refused nofun nofun⟩

theorem exists_forall₂_unpacks (binding : LoopBinding) (items : List Json) :
    ∃ unpacked, List.Forall₂ binding.Unpacks items unpacked := by
  induction items with
  | nil => exact ⟨[], .nil⟩
  | cons item rest ih =>
      obtain ⟨round, unpacks⟩ := binding.exists_unpacks item
      obtain ⟨unpacked, hrest⟩ := ih
      exact ⟨round :: unpacked, .cons unpacks hrest⟩

end LoopBinding

theorem Json.Elements.eq {v : Json} {items : List Json} (h : v.Elements items) :
    Control.collectionItems v = .ok items := by
  cases h <;> rfl

/-! ## Loops as rounds -/

namespace Execution

variable {ctx : Context} {body : Exec Json} {s : Scope}

def takeRound (body : Exec Json) : Except Control.Fault (List Control.Binding) → Exec Json
  | .ok bindings => inFrame (Scope.under ⟨.loopIteration, Fields.ofList bindings⟩) body
  | .error fault => throw fault.toError.toFailure

/-- Runs rounds one after the other. `outputs` holds what the rounds before gave, the last one
first. -/
def takeRounds (body : Exec Json) : Rounds → List Json → Exec (List Json)
  | [], outputs => return outputs.reverse
  | round :: rest, outputs => do
    let output ← takeRound body round
    takeRounds body rest (output :: outputs)

theorem times_eq (counter : Option String) (body : Exec Json) (n number : Nat)
    (outputs : List Json) : times counter body n number outputs = takeRounds body
      ((List.range n).map fun i =>
        .ok (counter.toList.map fun name => (name, Json.ofNat (number + i)))) outputs := by
  induction n generalizing number outputs with
  | zero => rfl
  | succ n ih =>
      have henter (bindings : List Control.Binding) :
          Control.declareAll bindings ∘ Scope.push .loopIteration =
            Scope.under ⟨.loopIteration, Fields.ofList bindings⟩ :=
        funext fun s => Scope.declareAll_push bindings .loopIteration s
      rw [times, List.range_succ_eq_map, List.map_cons, takeRounds, takeRound, List.map_map, henter]
      refine congrArg _ (funext fun output => ?_)
      rw [ih]
      refine congrArg (takeRounds body · _) (List.map_congr_left fun i _ => ?_)
      rw [Function.comp_apply, Nat.add_assoc, Nat.add_comm 1 i]

theorem declareAll_append (bindings more : List Control.Binding) (s : Scope) :
    Control.declareAll (bindings ++ more) s =
      Control.declareAll more (Control.declareAll bindings s) :=
  List.foldl_append

theorem takeRound_eq {binding : LoopBinding} {item : Json}
    {round : Except Control.Fault (List Control.Binding)}
    (h : Control.loopBindings binding item = round) (more : List Control.Binding)
    (body : Exec Json) : (inFrame (Scope.push .loopIteration) do
      let bindings ← decided fun _ => Control.loopBindings binding item
      modify (Control.declareAll bindings)
      modify (Control.declareAll more)
      body) = takeRound body (round.map (· ++ more)) := by
  rw [h]
  have hon (s : Scope) : (inFrame (Scope.push .loopIteration) do
      let bindings ← decided fun _ => round
      modify (Control.declareAll bindings)
      modify (Control.declareAll more)
      body).on s = (takeRound body (round.map (· ++ more))).on s := by
    rw [on_inFrame, on_bind, on_decided]
    cases round with
    | error fault => rfl
    | ok bindings =>
        change (body.on (Control.declareAll more (Control.declareAll bindings _))).bind _ = _
        rw [← declareAll_append, Scope.declareAll_push]
        exact (on_inFrame _ body s).symm
  exact funext hon

/-- The rounds of a loop over elements, from a position on. -/
theorem each_eq {binding : LoopBinding} (hdistinct : binding.names.Nodup) (index : Option String)
    (body : Exec Json) {items : List Json} {unpacked : Rounds}
    (h : List.Forall₂ binding.Unpacks items unpacked) (position : Nat) (outputs : List Json) :
    each binding index body items position outputs = takeRounds body
      (unpacked.mapIdx fun i round => round.map
        (· ++ index.toList.map fun name => (name, Json.ofNat (position + i)))) outputs := by
  induction h generalizing position outputs with
  | nil => rfl
  | cons unpacks rest ih =>
      rw [each, List.mapIdx_cons, takeRounds, takeRound_eq (unpacks.eq hdistinct), Nat.add_zero]
      refine congrArg _ (funext fun output => ?_)
      rw [ih]
      simp only [Nat.add_assoc, Nat.add_comm 1]

end Execution

/-! ## The course of a loop -/

section

variable {ctx : Context} {body : List Step} {rounds left : Rounds} {s t : Scope}
  {before deeds : List Deed} {values : List Json}

theorem Iterates.outlasts (h : Iterates ctx body rounds s before values left t) : s.Outlasts t := by
  cases h with
  | start => exact .refl s
  | next iterates opens ran outlasts => exact outlasts

theorem Scope.Outlasts.of_round {f : Frame} {u : Scope} {r : Except Failure Json}
    (ht : (t.under f).Arises)
    (h : ((runSequence body ctx .null).on (t.under f)).Follows deeds (.pure (r, u))) :
    t.Outlasts u.leave ∧ u.leave.Arises := by
  obtain ⟨hkeeps, hu⟩ := (Keeps.effectwise.compositional.sequence body ctx .null _ ht).of_follows h
  exact ⟨.of_under hkeeps, hu.leave⟩

/-- A loop that has completed some rounds goes on with the next one. The induction is on the rounds
that are left. -/
theorem Iterates.looped {q : Program (Except Failure Reached × Scope)}
    (h : Iterates ctx body rounds s before values left t) (ht : t.Arises)
    (hdistinct : ∀ bindings, .ok bindings ∈ left → (bindings.map Prod.fst).Nodup)
    (hf : (((takeRounds (runSequence body ctx .null) left values.reverse).on t).bind
      (after fun outputs => pure (.value (.arr outputs)))).Follows deeds q) :
    Looped ctx body rounds s (before ++ deeds) q := by
  induction left generalizing before values t deeds with
  | nil =>
      obtain ⟨rfl, rfl⟩ := Program.Follows.pure_iff.mp hf
      rw [List.append_nil, List.reverse_reverse]
      exact .finished h
  | cons round rest ih =>
      rw [takeRounds, on_bind] at hf
      cases round with
      | error fault =>
          obtain ⟨rfl, rfl⟩ := Program.Follows.pure_iff.mp hf
          rw [List.append_nil]
          exact .refused h
      | ok bindings =>
          have hopens := Frame.opens_ofList (hdistinct bindings List.mem_cons_self)
          have harises := ht.under .loopIteration bindings
          rw [takeRound, on_inFrame, Program.bind_assoc, Program.bind_assoc] at hf
          have hended {d more : List Deed} {r : Except Failure Json} {u : Scope}
              (hran : ((runSequence body ctx .null).on
                (t.under ⟨.loopIteration, Fields.ofList bindings⟩)).Follows d (.pure (r, u)))
              (hmore : (((after fun output => takeRounds (runSequence body ctx .null) rest
                (output :: values.reverse)) (r, u.leave)).bind
                  (after fun outputs => pure (.value (.arr outputs)))).Follows more q) :
              Looped ctx body rounds s (before ++ (d ++ more)) q := by
            obtain ⟨hout, hu⟩ := Scope.Outlasts.of_round harises hran
            have houtlasts := h.outlasts.trans hout
            cases r with
            | error failure =>
                obtain ⟨rfl, rfl⟩ := Program.Follows.pure_iff.mp hmore
                rw [List.append_nil]
                exact .failed h hopens hran houtlasts
            | ok v =>
                have hnext := h.next hopens hran houtlasts
                rw [← List.append_assoc]
                refine ih hnext hu (fun b hb => hdistinct b (List.mem_cons_of_mem _ hb)) ?_
                rw [List.reverse_append]
                exact hmore
          rcases hf.bind_cases with ⟨p, hp, rfl⟩ | ⟨d, more, ⟨r, u⟩, rfl, hran, hmore⟩
          · cases p with
            | perform e next => exact .within h hopens hp
            | pure ended =>
                rw [← List.append_nil deeds]
                exact hended hp (.start _)
          · exact hended hran hmore

namespace Action.LoopsOver

variable {action : Action}

theorem distinct (h : action.LoopsOver s body rounds) {bindings : List Control.Binding}
    (hmem : .ok bindings ∈ rounds) : (bindings.map Prod.fst).Nodup := by
  cases h with
  | times counter body evaluated counts =>
      obtain ⟨i, -, heq⟩ := List.mem_map.mp hmem
      cases heq
      cases counter <;> simp
  | @each collection v items binding index unpacked body evaluated elements distinct unpacks =>
      obtain ⟨i, hi, heq⟩ := List.mem_mapIdx.mp hmem
      obtain ⟨more, hmore⟩ : ∃ more, unpacked[i] = .ok more := by
        cases hround : unpacked[i] with
        | ok more => exact ⟨more, rfl⟩
        | error fault => simp [hround, Except.map] at heq
      have hitem := unpacks.get (by rwa [unpacks.length_eq]) hi
      rw [List.get_eq_getElem, List.get_eq_getElem, hmore] at hitem
      rw [hmore] at heq
      cases heq
      rw [List.map_append, hitem.names_eq, List.map_map]
      simpa [Function.comp_def] using distinct

theorem run_on (h : action.LoopsOver s body rounds) (id : String) (ctx : Context) :
    (action.run id ctx).on s = ((takeRounds (runSequence body ctx .null) rounds []).on s).bind
      (after fun outputs => pure (.value (.arr outputs))) := by
  cases h with
  | times counter body evaluated counts =>
      rw [Action.run, on_bind, on_evaluate, evaluated]
      change on (decided _ >>= _) s = _
      rw [on_bind, on_decided, counts]
      change on (Execution.times _ _ _ _ _ >>= _) s = _
      rw [on_bind, times_eq]
      simp only [Nat.add_comm 1]
  | each body evaluated elements distinct unpacks =>
      rw [Action.run, on_bind, on_evaluate, evaluated]
      change on (decided _ >>= _) s = _
      have hitems := elements.eq
      rw [on_bind, on_decided, hitems]
      change on (Execution.each _ _ _ _ _ _ >>= _) s = _
      rw [on_bind, each_eq (List.Nodup.of_append_left distinct) _ _ unpacks]
      simp only [Nat.zero_add]

end Action.LoopsOver

end

/-- A loop over a list or an object, or with a number as its count, has its rounds from the start: one
for each element in the order of the collection, or one for each number. Whatever the body does, the
loop is made of the first of these rounds, each of them run once in a frame that binds what the round
says, over frames that bind what they bound before the loop. It gives the values of all rounds, or it
fails with the first one that fails. -/
theorem loop_iterates_in_order {s : Scope} (hs : s.Arises) :
    (∀ (collection : Expr) (v : Json) (items : List Json) (binding : LoopBinding)
      (index : Option String) (body : List Step), Control.evaluate collection s = .ok v →
      v.Elements items → (binding.names ++ index.toList).Nodup →
      ∃ rounds : Rounds, rounds.length = items.length ∧
        (Action.repeatForEach collection binding index body).LoopsOver s body rounds) ∧
    (∀ (count : Expr) (n : Nat) (counter : Option String) (body : List Step),
      Control.evaluate count s = .ok (Json.ofNat n) → n < 2 ^ 64 →
      ∃ rounds : Rounds, rounds.length = n ∧
        (Action.repeatTimes count counter body).LoopsOver s body rounds) ∧
    (∀ entries : List (String × Json), ((Fields.ofList entries).map Prod.fst).Pairwise (· < ·)) ∧
    ∀ (action : Action) (body : List Step) (rounds : Rounds) (id : String) (ctx : Context)
      (deeds : List Deed) (q : Program (Except Failure Reached × Scope)),
      action.LoopsOver s body rounds → ((action.run id ctx).on s).Follows deeds q →
      Looped ctx body rounds s deeds q := by
  refine ⟨fun collection v items binding index body evaluated elements distinct => ?_,
    fun count n counter body evaluated hn => ?_, Fields.ascending_ofList,
    fun action body rounds id ctx deeds q hloop hf => ?_⟩
  · obtain ⟨unpacked, unpacks⟩ := binding.exists_forall₂_unpacks items
    refine ⟨_, ?_, .each body evaluated elements distinct unpacks⟩
    rw [List.length_mapIdx, unpacks.length_eq]
  · have counts : Control.loopCount (Json.ofNat n) = .ok n := by
      rw [Control.loopCount, Json.asUnsigned?_ofNat hn]
    exact ⟨_, by simp, .times counter body evaluated counts⟩
  · rw [hloop.run_on] at hf
    exact Iterates.start.looped hs (fun _ => hloop.distinct) hf

theorem loop_iterates_in_order_overwritten : ∃ (action : Action) (body : List Step) (ctx : Context)
    (s t : Scope) (deeds : List Deed) (rounds : Rounds), s.Arises ∧
    s.lookup? "all" = some (.arr [.str "a", .str "b"]) ∧ t.lookup? "all" = some (.str "b") ∧
    action.LoopsOver s body rounds ∧
    ((action.run "loop" ctx).on s).Follows deeds (.pure (.ok (.value (.arr [.str "a", .str "b"])), t)) ∧
    Looped ctx body rounds s deeds (.pure (.ok (.value (.arr [.str "a", .str "b"])), t)) := by
  let body := [Step.mk "set" (.assign "all" (.var "one") false) none none]
  let action : Action := .repeatForEach (.var "all") (.single "one") (some "i") body
  let ctx : Context := ⟨0, .root 0, none⟩
  let items : List Json := [.str "a", .str "b"]
  let s := Scope.ofBindings [("all", .arr items)]
  let round : List Deed := [⟨.isCancelled ctx.token, false⟩, ⟨.startSpan ctx "set", .ok ()⟩,
    ⟨.note 0 (.record ⟨"set", "set-variable", .completed, 1, none⟩), ()⟩,
    ⟨.endSpan ctx "set" .completed, .ok ()⟩]
  have hs : s.Arises := .start _
  have evaluated : Control.evaluate (.var "all") s = .ok (.arr items) := by rfl
  obtain ⟨-, -, -, hloop⟩ := loop_iterates_in_order hs
  have hover : action.LoopsOver s body _ :=
    .each body evaluated (.list items) (by decide) (.cons (.whole "one" _) (.cons (.whole "one" _) .nil))
  have hran : ((action.run "loop" ctx).on s).Follows (round ++ round) _ :=
    .deed (.deed (.deed (.deed (.deed (.deed (.deed (.deed (.start _))))))))
  exact ⟨action, body, ctx, s, _, _, _, hs, rfl, rfl, hover, hran, hloop _ _ _ _ _ _ _ hover hran⟩

end FlowEngine
