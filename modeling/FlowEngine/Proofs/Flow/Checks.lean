import FlowEngine.Flow.Validity
import Mathlib.Data.List.Nodup

/-!
# What valid flows are

The check of a flow goes through its steps in writing order and hands on the ids that it has seen.
Whatever the steps are, it accepts them if each of them is sound by itself, none of them has an id
that was seen before, and no transaction lies in the body of another one.
-/
namespace FlowEngine

structure Step.Sound (s : Step) : Prop where
  named : s.id.isEmpty = false
  attempted : ∀ p ∈ s.retry, p.maxAttempts ≠ 0
  reachable : Flow.unreachable? s.action = none

def Step.NoTransaction (s : Step) : Prop := ∀ body onError, s.action ≠ .transaction body onError

def Step.Unnested (s : Step) : Prop := ∀ body onError, s.action = .transaction body onError →
  ∀ n ∈ Step.sequenceNodes body, n.NoTransaction

namespace Flow

def Allowed : Bool → Step → Prop
  | true => Step.NoTransaction
  | false => Step.Unnested

structure Checked (inside : Bool) (nodes : List Step) (seen : List String) : Prop where
  sound : ∀ n ∈ nodes, n.Sound
  allowed : ∀ n ∈ nodes, Allowed inside n
  distinct : (nodes.map Step.id).Nodup
  fresh : ∀ n ∈ nodes, n.id ∉ seen

def seenAfter (nodes : List Step) (seen : List String) : List String :=
  (nodes.map Step.id).reverse ++ seen

def Accepts (check : List String → Except Fault (List String)) (inside : Bool)
    (nodes : List Step) : Prop :=
  ∀ seen seen', check seen = .ok seen' ↔ Checked inside nodes seen ∧ seen' = seenAfter nodes seen

variable {inside : Bool} {seen seen' : List String} {nodes more : List Step}

theorem allowed_of_noTransaction {s : Step} (h : s.NoTransaction) : Allowed inside s := by
  cases inside with
  | true => exact h
  | false => exact fun body onError hs => absurd hs (h body onError)

theorem allowed_of_action {a : Action} (h : ∀ body onError, a ≠ .transaction body onError)
    {id : String} (retry : Option RetryPolicy) (timeout : Option Millis) :
    Allowed inside (.mk id a retry timeout) :=
  allowed_of_noTransaction h

theorem checked_append : Checked inside (nodes ++ more) seen ↔
    Checked inside nodes seen ∧ Checked inside more (seenAfter nodes seen) := by
  constructor
  · rintro ⟨sound, allowed, distinct, fresh⟩
    simp only [List.forall_mem_append] at sound allowed fresh
    rw [List.map_append, List.nodup_append] at distinct
    obtain ⟨hn, hm, hdisjoint⟩ := distinct
    refine ⟨⟨sound.1, allowed.1, hn, fresh.1⟩, sound.2, allowed.2, hm, fun n hmem hseen => ?_⟩
    rcases List.mem_append.mp hseen with hid | hid
    · exact hdisjoint _ (List.mem_reverse.mp hid) _ (List.mem_map_of_mem hmem) rfl
    · exact fresh.2 n hmem hid
  · rintro ⟨hn, hm⟩
    refine ⟨List.forall_mem_append.mpr ⟨hn.sound, hm.sound⟩,
      List.forall_mem_append.mpr ⟨hn.allowed, hm.allowed⟩, ?_,
      List.forall_mem_append.mpr ⟨hn.fresh, fun n hmem hseen => ?_⟩⟩
    · rw [List.map_append, List.nodup_append]
      refine ⟨hn.distinct, hm.distinct, fun a ha b hb hab => ?_⟩
      obtain ⟨n, hmem, rfl⟩ := List.mem_map.mp hb
      exact hm.fresh n hmem (List.mem_append_left _ (List.mem_reverse.mpr (hab ▸ ha)))
    · exact hm.fresh n hmem (List.mem_append_right _ hseen)

theorem bind_eq_ok_iff {ε α β : Type} {x : Except ε α} {f : α → Except ε β} {b : β} :
    (x >>= f) = .ok b ↔ ∃ a, x = .ok a ∧ f a = .ok b := by
  cases x with
  | error e => exact ⟨nofun, nofun⟩
  | ok a => exact ⟨fun h => ⟨a, rfl, h⟩, fun ⟨_, ha, h⟩ => by cases ha; exact h⟩

namespace Accepts

theorem nothing : Accepts .ok inside [] := by
  intro seen seen'
  constructor
  · rintro ⟨⟩
    exact ⟨⟨nofun, nofun, .nil, nofun⟩, rfl⟩
  · rintro ⟨-, rfl⟩
    rfl

theorem bind {f g : List String → Except Fault (List String)} (hf : Accepts f inside nodes)
    (hg : Accepts g inside more) : Accepts (fun seen => f seen >>= g) inside (nodes ++ more) := by
  intro seen seen'
  have hafter : seenAfter (nodes ++ more) seen = seenAfter more (seenAfter nodes seen) := by
    simp [seenAfter]
  rw [bind_eq_ok_iff, checked_append, hafter]
  constructor
  · rintro ⟨seen₁, hnodes, hmore⟩
    obtain ⟨hchecked, rfl⟩ := (hf _ _).mp hnodes
    obtain ⟨hchecked', rfl⟩ := (hg _ _).mp hmore
    exact ⟨⟨hchecked, hchecked'⟩, rfl⟩
  · rintro ⟨⟨hchecked, hchecked'⟩, rfl⟩
    exact ⟨_, (hf _ _).mpr ⟨hchecked, rfl⟩, (hg _ _).mpr ⟨hchecked', rfl⟩⟩

end Accepts

theorem checkNode_eq_ok {s : Step} :
    checkNode s seen = .ok seen' ↔ s.Sound ∧ s.id ∉ seen ∧ seen' = s.id :: seen := by
  unfold checkNode
  constructor
  · intro h
    split at h
    · cases h
    · rename_i hnamed
      split at h
      · cases h
      · rename_i hnew
        split at h
        · cases h
        · rename_i hattempts
          split at h
          · cases h
          · rename_i hreachable
            cases h
            refine ⟨⟨by simpa using hnamed, ?_, hreachable⟩, by simpa using hnew, rfl⟩
            intro p hp hzero
            exact hattempts (by rw [Option.mem_def.mp hp]; simp [hzero])
  · rintro ⟨⟨named, attempted, reachable⟩, hnew, rfl⟩
    have hattempts : (s.retry.map fun p => p.maxAttempts == 0) ≠ some true := by
      cases hretry : s.retry with
      | none => simp
      | some p => simpa using attempted p hretry
    rw [if_neg (by simp [named]), if_neg (by simpa using hnew), if_neg hattempts, reachable]

mutual

theorem checkStep_accepts : (s : Step) → {inside : Bool} → Accepts (checkStep s inside) inside s.nodes
  | .mk id action retry timeout, inside => by
      intro seen seen'
      rw [checkStep, bind_eq_ok_iff, Step.nodes, ← List.singleton_append, checked_append]
      have hafter : seenAfter ([.mk id action retry timeout] ++ Step.actionNodes action) seen =
          seenAfter (Step.actionNodes action) (id :: seen) := by
        simp [seenAfter, Step.id]
      rw [hafter]
      constructor
      · rintro ⟨seen₁, hnode, haction⟩
        obtain ⟨hsound, hnew, rfl⟩ := checkNode_eq_ok.mp hnode
        obtain ⟨hself, hinner, rfl⟩ := (checkAction_accepts action).mp haction
        exact ⟨⟨⟨List.forall_mem_singleton.mpr hsound, List.forall_mem_singleton.mpr (hself _ _),
          List.nodup_singleton _, List.forall_mem_singleton.mpr hnew⟩, hinner⟩, rfl⟩
      · rintro ⟨⟨hself, hinner⟩, rfl⟩
        refine ⟨id :: seen, checkNode_eq_ok.mpr ⟨hself.sound _ List.mem_cons_self,
          hself.fresh _ List.mem_cons_self, rfl⟩, (checkAction_accepts action).mpr ⟨?_, hinner, rfl⟩⟩
        intro retry' timeout'
        have hallowed := hself.allowed _ List.mem_cons_self
        cases inside with
        | true => exact hallowed
        | false => exact hallowed

/-- The check of an action is that of the steps inside of it, and of whether the action may be
where it is. -/
theorem checkAction_accepts : (a : Action) → {id : String} → {inside : Bool} →
    {seen seen' : List String} → (checkAction id a inside seen = .ok seen' ↔
      (∀ retry timeout, Allowed inside (.mk id a retry timeout)) ∧
        Checked inside (Step.actionNodes a) seen ∧ seen' = seenAfter (Step.actionNodes a) seen)
  | .conditional bs otherwise, id, inside, seen, seen' => by
      rw [checkAction, Step.actionNodes]
      refine Iff.trans ?_ (and_iff_right (allowed_of_action (by simp))).symm
      exact (checkBranches_accepts bs).bind (checkOption_accepts otherwise) seen seen'
  | .choose subject as otherwise, id, inside, seen, seen' => by
      rw [checkAction, Step.actionNodes]
      refine Iff.trans ?_ (and_iff_right (allowed_of_action (by simp))).symm
      exact (checkArms_accepts as).bind (checkOption_accepts otherwise) seen seen'
  | .transaction body onError, id, inside, seen, seen' => by
      rw [checkAction, Step.actionNodes, checked_append]
      cases inside with
      | true => exact ⟨nofun, fun h => absurd rfl (h.1 none none body onError)⟩
      | false =>
          have hafter : seenAfter (Step.sequenceNodes body ++ Step.optionNodes onError) seen =
              seenAfter (Step.optionNodes onError) (seenAfter (Step.sequenceNodes body) seen) := by
            simp [seenAfter]
          rw [hafter]
          refine bind_eq_ok_iff.trans ?_
          constructor
          · rintro ⟨seen₁, hfirst, hrest⟩
            obtain ⟨hbody, rfl⟩ := (checkSequence_accepts body _ _).mp hfirst
            obtain ⟨hhandler, rfl⟩ := (checkOption_accepts onError _ _).mp hrest
            refine ⟨?_, ⟨⟨hbody.sound, fun n hn => allowed_of_noTransaction (hbody.allowed n hn),
              hbody.distinct, hbody.fresh⟩, hhandler⟩, rfl⟩
            rintro _ _ _ _ ⟨⟩
            exact hbody.allowed
          · rintro ⟨hself, ⟨hbody, hhandler⟩, rfl⟩
            exact ⟨_, (checkSequence_accepts body _ _).mpr
              ⟨⟨hbody.sound, hself none none _ _ rfl, hbody.distinct, hbody.fresh⟩, rfl⟩,
              (checkOption_accepts onError _ _).mpr ⟨hhandler, rfl⟩⟩
  | .parallel bodies join, id, inside, seen, seen' => by
      rw [checkAction, Step.actionNodes]
      refine Iff.trans ?_ (and_iff_right (allowed_of_action (by simp))).symm
      exact checkParallel_accepts bodies seen seen'
  | .guard condition body, id, inside, seen, seen' => by
      rw [checkAction, Step.actionNodes]
      refine Iff.trans ?_ (and_iff_right (allowed_of_action (by simp))).symm
      exact checkSequence_accepts body seen seen'
  | .repeatTimes count counter body, id, inside, seen, seen' => by
      rw [checkAction, Step.actionNodes]
      refine Iff.trans ?_ (and_iff_right (allowed_of_action (by simp))).symm
      exact checkSequence_accepts body seen seen'
  | .repeatForEach collection binding index body, id, inside, seen, seen' => by
      rw [checkAction, Step.actionNodes]
      refine Iff.trans ?_ (and_iff_right (allowed_of_action (by simp))).symm
      exact checkSequence_accepts body seen seen'
  | .forEach collection binding body join collect, id, inside, seen, seen' => by
      rw [checkAction, Step.actionNodes]
      refine Iff.trans ?_ (and_iff_right (allowed_of_action (by simp))).symm
      exact checkSequence_accepts body seen seen'
  | .call _ _, id, inside, seen, seen' | .record _ _, id, inside, seen, seen'
  | .script _ _, id, inside, seen, seen' | .assign _ _ _, id, inside, seen, seen' => by
      rw [checkAction, Step.actionNodes]
      exact (Accepts.nothing seen seen').trans (and_iff_right (allowed_of_action (by simp))).symm

theorem checkSequence_accepts : (steps : List Step) → {inside : Bool} →
    Accepts (checkSequence steps inside) inside (Step.sequenceNodes steps)
  | [], inside => by
      rw [Step.sequenceNodes]
      exact Accepts.nothing
  | s :: rest, inside => by
      rw [Step.sequenceNodes]
      exact (checkStep_accepts s).bind (checkSequence_accepts rest)

theorem checkOption_accepts : (body : Option (List Step)) → {inside : Bool} →
    Accepts (checkOption body inside) inside (Step.optionNodes body)
  | none, inside => by
      rw [Step.optionNodes]
      exact Accepts.nothing
  | some body, inside => by
      rw [Step.optionNodes]
      exact checkSequence_accepts body

theorem checkBranches_accepts : (bs : List (Expr × List Step)) → {inside : Bool} →
    Accepts (checkBranches bs inside) inside (Step.branchNodes bs)
  | [], inside => by
      rw [Step.branchNodes]
      exact Accepts.nothing
  | (condition, body) :: rest, inside => by
      rw [Step.branchNodes]
      exact (checkSequence_accepts body).bind (checkBranches_accepts rest)

theorem checkArms_accepts : (as : List (Pattern × List Step)) → {inside : Bool} →
    Accepts (checkArms as inside) inside (Step.armNodes as)
  | [], inside => by
      rw [Step.armNodes]
      exact Accepts.nothing
  | (pattern, body) :: rest, inside => by
      rw [Step.armNodes]
      exact (checkSequence_accepts body).bind (checkArms_accepts rest)

theorem checkParallel_accepts : (bodies : List (List Step × Option Expr)) → {inside : Bool} →
    Accepts (checkParallel bodies inside) inside (Step.parallelNodes bodies)
  | [], inside => by
      rw [Step.parallelNodes]
      exact Accepts.nothing
  | (body, collect) :: rest, inside => by
      rw [Step.parallelNodes]
      exact (checkSequence_accepts body).bind (checkParallel_accepts rest)

end

/-- A flow is accepted if its name has more than white space and all its steps pass the check. -/
theorem validate_eq_ok {flow : Flow} : flow.validate = .ok () ↔
    Text.isBlank flow.name = false ∧ Checked false flow.nodes [] := by
  unfold validate
  cases hblank : Text.isBlank flow.name with
  | true => exact ⟨nofun, nofun⟩
  | false =>
      simp only [Bool.false_eq_true, if_false, true_and]
      refine bind_eq_ok_iff.trans ⟨?_, fun h => ?_⟩
      · rintro ⟨seen, hfirst, h⟩
        obtain ⟨seen', hhandler, -⟩ := bind_eq_ok_iff.mp h
        obtain ⟨hsteps, rfl⟩ := (checkSequence_accepts flow.steps _ _).mp hfirst
        exact checked_append.mpr ⟨hsteps, ((checkOption_accepts flow.onError _ _).mp hhandler).1⟩
      · obtain ⟨hsteps, hhandler⟩ := checked_append.mp h
        have hfirst := (checkSequence_accepts flow.steps _ _).mpr ⟨hsteps, rfl⟩
        have hrest := (checkOption_accepts flow.onError _ _).mpr ⟨hhandler, rfl⟩
        exact ⟨_, hfirst, bind_eq_ok_iff.mpr ⟨_, hrest, rfl⟩⟩

theorem checked_of_valid {flow : Flow} (h : flow.validate = .ok ()) : Checked false flow.nodes [] :=
  (validate_eq_ok.mp h).2

/-- No two steps of a valid flow have one id, those of its handler included. -/
theorem nodup_ids_of_valid {flow : Flow} (h : flow.validate = .ok ()) :
    (flow.nodes.map Step.id).Nodup :=
  (checked_of_valid h).distinct

def outermost (flow : Flow) : List Step := flow.steps ++ flow.onError.getD []

def OutermostOnly (flow : Flow) (id : String) : Prop :=
  ∀ s ∈ flow.outermost, ∀ n ∈ Step.actionNodes s.action, n.id ≠ id

theorem unnested_of_valid {flow : Flow} (h : flow.validate = .ok ()) : ∀ n ∈ flow.nodes, n.Unnested :=
  (checked_of_valid h).allowed

end Flow
end FlowEngine
