import FlowEngine.Proofs.Format.Forms

/-!
# The formats round trip

What is encoded is in canonical form and is decoded to the value it was made of. Together with the
finiteness of the factors that are decoded, every value that decodes has a canonical form, and that
form decodes to the same value again.
-/
namespace FlowEngine
open Json

theorem UnaryOp.written (op : UnaryOp) : Form.Written (.oneOf ["not", "neg"]) op.toJson := by
  cases op <;> exact .oneOf (by simp [name])

theorem BinaryOp.written (op : BinaryOp) : Form.Written (.oneOf ["add", "sub", "mul", "div", "mod",
    "eq", "ne", "lt", "le", "gt", "ge", "and", "or", "in"]) op.toJson := by
  cases op <;> exact .oneOf (by simp [name])

theorem ErrorKind.written (k : ErrorKind) : Form.Written (.oneOf ["unknown_identifier",
    "validation", "step_execution", "timeout", "match_exhausted", "nested_transaction",
    "retry_exhausted", "cancellation", "configuration", "store", "not_found", "serialization"])
    k.toJson := by
  cases k <;> exact .oneOf (by simp [name])

theorem JoinPolicy.written (p : JoinPolicy) :
    Form.Written (.oneOf ["wait-all", "fail-fast"]) p.toJson := by
  cases p <;> exact .oneOf (by simp [name])

theorem Millis.written (ms : Millis) : Form.millis.Written ms.toJson := .upTo ms.toNat_lt

namespace Slot

theorem tag_fits (key name : String) : Fits (Form.tag key name) (key, some (.str name)) :=
  .required (.oneOf (.head _))

theorem text_fits (key s : String) : Fits ⟨key, .required, .text⟩ (key, some (.str s)) :=
  .required (.text s)

theorem flag_fits (key : String) (b : Bool) : Fits ⟨key, .defaulted, .flag⟩ (key, some (.bool b)) :=
  .defaulted (.flag b)

theorem name_fits (key : String) (o : Option String) :
    Fits ⟨key, .optional, .text⟩ (key, o.map Json.str) :=
  .option (fun s _ => .text s) fun s _ => .text s

end Slot

namespace Expr
open Slot

mutual
theorem written : ∀ e : Expr, Form.expr.Written e.toJson
  | literal value => by
    rw [toJson]
    exact .entries 0 rfl (by simp) (.cons (tag_fits ..) (.cons (.required (.any value)) .nil))
  | var path => by
    rw [toJson]
    exact .entries 1 rfl (by simp) (.cons (tag_fits ..) (.cons (text_fits ..) .nil))
  | unary op operand => by
    rw [toJson]
    exact .entries 2 rfl (by simp) (.cons (tag_fits ..) (.cons (.required op.written)
      (.cons (.required (written operand)) .nil)))
  | binary op left right => by
    rw [toJson]
    exact .entries 3 rfl (by simp) (.cons (tag_fits ..) (.cons (.required op.written)
      (.cons (.required (written left)) (.cons (.required (written right)) .nil))))
  | list items => by
    rw [toJson, itemsToJson_eq]
    exact .entries 4 rfl (by simp) (.cons (tag_fits ..)
      (.cons (.required (.list (List.forall_mem_map.mpr (written_items items)))) .nil))
  | object fields => by
    rw [toJson, fieldsToJson_eq]
    have hfields : (Form.list (.named .expr)).Written (.arr (fields.map fieldToJson)) :=
      .list (List.forall_mem_map.mpr fun f hf => .named f.1 (written_fields fields f hf))
    exact .entries 5 rfl (by simp) (.cons (tag_fits ..) (.cons (.required hfields) .nil))
  | query expression => by
    rw [toJson]
    exact .entries 6 rfl (by simp) (.cons (tag_fits ..) (.cons (text_fits ..) .nil))

theorem written_items : ∀ items : List Expr, ∀ e ∈ items, Form.expr.Written e.toJson
  | e :: _, _, .head _ => written e
  | _ :: rest, _, .tail _ h => written_items rest _ h

theorem written_fields : ∀ fields : List (String × Expr), ∀ f ∈ fields, Form.expr.Written f.2.toJson
  | (_, e) :: _, _, .head _ => written e
  | _ :: rest, _, .tail _ h => written_fields rest _ h
end

end Expr

namespace Failure
open Slot

theorem written_of_cause (f : Failure) (h : ∀ c ∈ f.cause, Form.failure.Written c.toJson) :
    Form.failure.Written f.toJson := by
  rw [toJson_eq]
  exact .record 0 rfl (by simp) (.cons (.required f.kind.written) (.cons (text_fits ..)
    (.cons (name_fits ..) (.cons (flag_fits ..)
      (.cons (.option (fun c _ => c.inverts) h) .nil)))))

theorem written : ∀ f : Failure, Form.failure.Written f.toJson
  | ⟨_, _, _, _, none⟩ => written_of_cause _ nofun
  | ⟨_, _, _, _, some cause⟩ => written_of_cause _ fun _ h => Option.some.inj h ▸ written cause

end Failure

theorem LoopBinding.written (b : LoopBinding) : Form.binding.Written b.toJson := by
  cases b with
  | single name => exact .name name
  | destructure names => exact .names (.list (List.forall_mem_map.mpr fun s _ => .text s))

open Slot in
theorem Pattern.written (p : Pattern) : Form.pattern.Written p.toJson := by
  cases p with
  | literal value =>
    exact .entries 0 rfl (by simp) (.cons (tag_fits ..) (.cons (.required (.any value)) .nil))
  | ok bind => exact .record 1 rfl (by simp) (.cons (tag_fits ..) (.cons (name_fits ..) .nil))
  | err bind => exact .record 2 rfl (by simp) (.cons (tag_fits ..) (.cons (name_fits ..) .nil))

theorem Json.double_written {x : Float} (h : x.isFinite = true) :
    Form.double.Written (Json.ofFloat x) := by
  rw [ofFloat_of_finite h]
  exact .double h

namespace Slot

theorem delay_fits (key : String) (ms : Millis) :
    Fits ⟨key, .required, Form.millis⟩ (key, some ms.toJson) :=
  .required ms.written

theorem limit_fits (key : String) (o : Option Millis) :
    Fits ⟨key, .optional, Form.millis⟩ (key, o.map Millis.toJson) :=
  .option (fun ms _ => ms.inverts) fun ms _ => ms.written

theorem expr_fits (key : String) (e : Expr) : Fits ⟨key, .required, .expr⟩ (key, some e.toJson) :=
  .required e.written

theorem exprOption_fits (key : String) (o : Option Expr) :
    Fits ⟨key, .optional, .expr⟩ (key, o.map Expr.toJson) :=
  .option (fun e _ => e.inverts) fun e _ => e.written

end Slot

open Slot in
theorem Backoff.written {b : Backoff} (h : b.Finite) : Form.backoff.Written b.toJson := by
  cases b with
  | fixed delay =>
    exact .entries 0 rfl (by simp) (.cons (tag_fits ..) (.cons (delay_fits ..) .nil))
  | linear delay =>
    exact .entries 1 rfl (by simp) (.cons (tag_fits ..) (.cons (delay_fits ..) .nil))
  | exponential initial multiplier limit =>
    exact .record 2 rfl (by simp) (.cons (tag_fits ..) (.cons (delay_fits ..)
      (.cons (.required (double_written h)) (.cons (limit_fits ..) .nil))))

open Slot in
theorem RetryPolicy.written {p : RetryPolicy} (h : p.backoff.Finite) :
    Form.retryPolicy.Written p.toJson :=
  .entries 0 rfl (by simp) (.cons (.required (.upTo p.maxAttempts.toNat_lt))
    (.cons (.defaulted (Backoff.written h)) (.cons (flag_fits ..) .nil)))

open Slot in
theorem CallSpec.fits (c : CallSpec) : List.Forall₂ Fits Form.callSlots c.fields :=
  .cons (text_fits ..) (.cons
    (.defaulted (.table (List.forall_mem_map.mpr fun f _ => f.2.written)))
    (.cons (name_fits ..) (.cons (flag_fits ..) .nil)))

open Slot in
theorem RecordSpec.fits (r : RecordSpec) : List.Forall₂ Fits Form.recordSlots r.fields :=
  .cons (text_fits ..) (.cons (exprOption_fits ..) (.cons (exprOption_fits ..)
    (.cons (name_fits ..) (.cons (flag_fits ..) .nil))))

namespace Step
open Slot

theorem sequence_written {body : List Step} (h : ∀ s ∈ body, Form.step.Written s.toJson) :
    (Form.list .step).Written (sequenceToJson body) :=
  .list (List.forall_mem_map.mpr h)

theorem sequence_fits (key : String) {body : List Step}
    (h : ∀ s ∈ body, Form.step.Written s.toJson) :
    Fits ⟨key, .required, .list .step⟩ (key, some (sequenceToJson body)) :=
  .required (sequence_written h)

theorem sequenceOption_fits (key : String) {body : Option (List Step)}
    (h : ∀ steps ∈ body, ∀ s ∈ steps, Form.step.Written s.toJson) :
    Fits ⟨key, .optional, .list .step⟩ (key, body.map sequenceToJson) := by
  cases body with
  | none => exact .dropped
  | some steps => exact .shown (sequence_written (h steps rfl)) nofun

theorem branch_written {b : Expr × List Step} (h : ∀ s ∈ b.2, Form.step.Written s.toJson) :
    Form.branch.Written (branchToJson b) :=
  .entries 0 rfl (by simp) (.cons (expr_fits ..) (.cons (sequence_fits _ h) .nil))

theorem arm_written {a : Pattern × List Step} (h : ∀ s ∈ a.2, Form.step.Written s.toJson) :
    Form.arm.Written (armToJson a) :=
  .entries 0 rfl (by simp) (.cons (.required a.1.written) (.cons (sequence_fits _ h) .nil))

theorem lane_written {l : List Step × Option Expr} (h : ∀ s ∈ l.1, Form.step.Written s.toJson) :
    Form.lane.Written (laneToJson l) :=
  .record 0 rfl (by simp) (.cons (sequence_fits _ h) (.cons (exprOption_fits ..) .nil))

theorem action_fits (action : Action)
    (h : ∀ body ∈ action.children, ∀ s ∈ body, Form.step.Written s.toJson) :
    ∃ slots, (action.kind, slots) ∈ Form.actions ∧
      List.Forall₂ Fits slots (actionFields action) := by
  cases action with
  | call route spec =>
    cases route with
    | model => exact ⟨_, List.mem_of_getElem? (i := 0) rfl, spec.fits⟩
    | agent => exact ⟨_, List.mem_of_getElem? (i := 1) rfl, spec.fits⟩
    | tool => exact ⟨_, List.mem_of_getElem? (i := 2) rfl, spec.fits⟩
  | script expr bind =>
    exact ⟨_, List.mem_of_getElem? (i := 3) rfl, .cons (expr_fits ..) (.cons (name_fits ..) .nil)⟩
  | assign target value declare =>
    exact ⟨_, List.mem_of_getElem? (i := 4) rfl,
      .cons (text_fits ..) (.cons (expr_fits ..) (.cons (flag_fits ..) .nil))⟩
  | record op spec =>
    cases op with
    | create => exact ⟨_, List.mem_of_getElem? (i := 5) rfl, spec.fits⟩
    | update => exact ⟨_, List.mem_of_getElem? (i := 6) rfl, spec.fits⟩
    | delete => exact ⟨_, List.mem_of_getElem? (i := 7) rfl, spec.fits⟩
    | query => exact ⟨_, List.mem_of_getElem? (i := 8) rfl, spec.fits⟩
  | conditional branches otherwise =>
    rw [actionFields, branchesToJson_eq, optionToJson_eq]
    have hbranches : (Form.list .branch).Written (.arr (branches.map branchToJson)) :=
      .list (List.forall_mem_map.mpr fun b hb => branch_written
        (h b.2 (List.mem_append_left _ (List.mem_map_of_mem hb))))
    exact ⟨_, List.mem_of_getElem? (i := 9) rfl, .cons (.required hbranches)
      (.cons (sequenceOption_fits _ fun steps hs =>
        h steps (List.mem_append_right _ (Option.mem_toList.mpr hs))) .nil)⟩
  | choose subject arms otherwise =>
    rw [actionFields, armsToJson_eq, optionToJson_eq]
    have harms : (Form.list .arm).Written (.arr (arms.map armToJson)) :=
      .list (List.forall_mem_map.mpr fun a ha => arm_written
        (h a.2 (List.mem_append_left _ (List.mem_map_of_mem ha))))
    exact ⟨_, List.mem_of_getElem? (i := 10) rfl, .cons (expr_fits ..) (.cons (.required harms)
      (.cons (sequenceOption_fits _ fun steps hs =>
        h steps (List.mem_append_right _ (Option.mem_toList.mpr hs))) .nil))⟩
  | guard condition body =>
    rw [actionFields, sequenceToJson_eq]
    exact ⟨_, List.mem_of_getElem? (i := 11) rfl,
      .cons (expr_fits ..) (.cons (sequence_fits _ (h body (.head _))) .nil)⟩
  | repeatTimes count counter body =>
    rw [actionFields, sequenceToJson_eq]
    exact ⟨_, List.mem_of_getElem? (i := 12) rfl, .cons (expr_fits ..) (.cons (name_fits ..)
      (.cons (sequence_fits _ (h body (.head _))) .nil))⟩
  | repeatForEach collection binding index body =>
    rw [actionFields, sequenceToJson_eq]
    exact ⟨_, List.mem_of_getElem? (i := 13) rfl, .cons (expr_fits ..)
      (.cons (.required binding.written) (.cons (name_fits ..)
        (.cons (sequence_fits _ (h body (.head _))) .nil)))⟩
  | forEach collection binding body join collect =>
    rw [actionFields, sequenceToJson_eq]
    exact ⟨_, List.mem_of_getElem? (i := 14) rfl, .cons (expr_fits ..)
      (.cons (.required binding.written) (.cons (sequence_fits _ (h body (.head _)))
        (.cons (.defaulted join.written) (.cons (exprOption_fits ..) .nil))))⟩
  | parallel branches join =>
    rw [actionFields, parallelToJson_eq]
    have hlanes : (Form.list .lane).Written (.arr (branches.map laneToJson)) :=
      .list (List.forall_mem_map.mpr fun l hl => lane_written (h l.1 (List.mem_map_of_mem hl)))
    exact ⟨_, List.mem_of_getElem? (i := 15) rfl, .cons (.required hlanes)
      (.cons (.defaulted join.written) .nil)⟩
  | transaction body onError =>
    rw [actionFields, sequenceToJson_eq, optionToJson_eq]
    exact ⟨_, List.mem_of_getElem? (i := 16) rfl,
      .cons (sequence_fits _ (h body (.head _))) (.cons (sequenceOption_fits _ fun steps hs =>
        h steps (.tail _ (Option.mem_toList.mpr hs))) .nil)⟩

theorem written (s : Step) : s.Finite → Form.step.Written s.toJson := by
  induction s using Step.induction with
  | h s ih =>
    intro hs
    obtain ⟨slots, hslots, hfits⟩ := action_fits s.action
      fun body hb c hc => ih body hb c hc (hs.child hb hc)
    have hretry : Fits ⟨"retry", .optional, .retryPolicy⟩
        ("retry", s.retry.map RetryPolicy.toJson) :=
      .option (fun p hp => RetryPolicy.inverts (hs.policy p hp))
        fun p hp => RetryPolicy.written (hs.policy p hp)
    have hentries : List.Forall₂ Fits (Form.stepSlots s.kind slots) s.entries :=
      List.rel_append (List.rel_append (.cons (text_fits ..) (.cons (tag_fits ..) .nil)) hfits)
        (.cons hretry (.cons (limit_fits ..) .nil))
    have hmem : Form.stepSlots s.kind slots ∈ Form.step.variants :=
      List.mem_map.mpr ⟨_, hslots, rfl⟩
    obtain ⟨variant, hvariant⟩ := List.getElem?_of_mem hmem
    rw [toJson_eq]
    exact .record variant hvariant s.nodup_entries hentries

end Step

theorem Flow.written {f : Flow} (h : f.Finite) : Form.flow.Written f.toJson := by
  obtain ⟨hsteps, hhandler⟩ := f.finite_iff.mp h
  rw [toJson_eq]
  exact .record 0 rfl f.nodup_entries (.cons (Slot.text_fits ..) (.cons (Slot.name_fits ..)
    (.cons (Step.sequence_fits _ fun s hs => s.written (hsteps s hs))
      (.cons (Step.sequenceOption_fits _ fun body hb s hs => s.written (hhandler body hb s hs))
        .nil))))

structure Format (α : Type) where
  form : Form
  write : α → Json
  read : Json → Option α

def Flow.format : Format Flow := ⟨.flow, toJson, ofJson?⟩

def Step.format : Format Step := ⟨.step, toJson, ofJson?⟩

def Expr.format : Format Expr := ⟨.expr, toJson, ofJson?⟩

def RetryPolicy.format : Format RetryPolicy := ⟨.retryPolicy, toJson, ofJson?⟩

def Failure.format : Format Failure := ⟨.failure, toJson, ofJson?⟩

namespace Format
variable {α : Type}

/-- The values of a domain are written in the form of the format and read back from what is
written, and so is whatever is read from any value at all. -/
def RoundTrips (format : Format α) (domain : α → Prop) : Prop :=
  (∀ x, domain x →
    format.form.Written (format.write x) ∧ format.read (format.write x) = some x) ∧
  ∀ v x, format.read v = some x →
    format.form.Written (format.write x) ∧ format.read (format.write x) = some x

theorem RoundTrips.of_inverts {format : Format α} {domain : α → Prop}
    (inverts : ∀ x, domain x → Json.Inverts format.read format.write x)
    (written : ∀ x, domain x → format.form.Written (format.write x))
    (reads : ∀ v x, format.read v = some x → domain x) : format.RoundTrips domain := by
  have htrip (x : α) (hx : domain x) :
      format.form.Written (format.write x) ∧ format.read (format.write x) = some x :=
    ⟨written x hx, (inverts x hx).read_write⟩
  exact ⟨htrip, fun v x hv => htrip x (reads v x hv)⟩

end Format

/-- Flows, steps, expressions, retry policies and failures round trip through their JSON formats, as
long as the growth factors of their backoffs are finite; and whatever decodes has a canonical form
that decodes to the same value. -/
theorem formats_round_trip :
    Flow.format.RoundTrips Flow.Finite ∧ Step.format.RoundTrips Step.Finite ∧
      Expr.format.RoundTrips (fun _ => True) ∧
      RetryPolicy.format.RoundTrips (fun p => p.backoff.Finite) ∧
      Failure.format.RoundTrips (fun _ => True) := by
  refine ⟨.of_inverts ?_ ?_ ?_, .of_inverts ?_ ?_ ?_, .of_inverts ?_ ?_ ?_, .of_inverts ?_ ?_ ?_,
    .of_inverts ?_ ?_ ?_⟩
  · exact fun f hf => Flow.inverts hf
  · exact fun f hf => Flow.written hf
  · exact fun v f hv => Flow.finite_of_ofJson? hv
  · exact fun s hs => s.inverts hs
  · exact fun s hs => s.written hs
  · exact fun v s hv => Step.finite_of_ofJson? hv
  · exact fun e _ => e.inverts
  · exact fun e _ => e.written
  · exact fun _ _ _ => trivial
  · exact fun p hp => RetryPolicy.inverts hp
  · exact fun p hp => RetryPolicy.written hp
  · exact fun v p hv => RetryPolicy.finite_of_ofJson? hv
  · exact fun f _ => f.inverts
  · exact fun f _ => f.written
  · exact fun _ _ _ => trivial

end FlowEngine
