import FlowEngine.Step.Codec
import FlowEngine.Proofs.Format.Doubles
import FlowEngine.Proofs.Format.Expressions

/-!
# The parts of a step are read back

Bindings, patterns, policies and the specifications of calls and record operations. The growth
factor of a backoff is read back when it is finite, and only a finite one is read.
-/
namespace FlowEngine
open Json

theorem Millis.inverts (ms : Millis) : Inverts ofJson? toJson ms where
  read_write := by
    rw [ofJson?, toJson, asUnsigned?_ofNat ms.toNat_lt]
    simp
  not_null := nofun

theorem Json.inverts_word32 {n : Nat} (h : n < UInt32.size) : Inverts asWord32? ofNat n where
  read_write := by
    rw [asWord32?, natBelow, asUnsigned?_ofNat (h.trans (by decide))]
    simp only [Option.bind_eq_bind, Option.bind_some, if_pos h]
  not_null := nofun

theorem JoinPolicy.inverts (p : JoinPolicy) : Inverts ofJson? toJson p := by
  cases p <;> exact ⟨rfl, nofun⟩

theorem LoopBinding.inverts (b : LoopBinding) : Inverts ofJson? toJson b := by
  cases b with
  | single name => exact ⟨rfl, nofun⟩
  | destructure names =>
    refine ⟨?_, nofun⟩
    have hread : listOf asText? (.arr (names.map .str)) = some names :=
      (Inverts.list fun s _ => .text s).read_write
    simp only [toJson, ofJson?, hread]
    rfl

theorem Pattern.inverts (p : Pattern) : Inverts ofJson? toJson p := by
  cases p with
  | literal value =>
    refine ⟨?_, nofun⟩
    rw [toJson, ofJson?]
    have hf {k w} := @field?_object k w [("type", .str "literal"), ("value", value)] (by simp)
    have htag := (Inverts.text "literal").required (hf (k := "type") (by simp))
    have hvalue := hf (k := "value") (w := value) (by simp)
    simp only [htag, hvalue, Option.bind_eq_bind, Option.bind_some]
    rfl
  | ok bind =>
    refine ⟨?_, nofun⟩
    rw [toJson, ofJson?]
    have hf {k w} := @field?_record k [("type", some (.str "ok")), ("bind", bind.map .str)] w
      (by simp)
    have htag := (Inverts.text "ok").required (hf (k := "type") (by simp))
    have hbind := Inverts.optional (o := bind) (fun s _ => .text s) (hf (k := "bind") (by simp))
    simp only [htag, hbind, Option.bind_eq_bind, Option.bind_some]
    rfl
  | err bind =>
    refine ⟨?_, nofun⟩
    rw [toJson, ofJson?]
    have hf {k w} := @field?_record k [("type", some (.str "err")), ("bind", bind.map .str)] w
      (by simp)
    have htag := (Inverts.text "err").required (hf (k := "type") (by simp))
    have hbind := Inverts.optional (o := bind) (fun s _ => .text s) (hf (k := "bind") (by simp))
    simp only [htag, hbind, Option.bind_eq_bind, Option.bind_some]
    rfl

/-- The growth factor of a backoff is a finite double. -/
def Backoff.Finite : Backoff → Prop
  | fixed _ | linear _ => True
  | exponential _ multiplier _ => multiplier.isFinite = true

theorem Json.ofFloat_of_finite {x : Float} (h : x.isFinite = true) :
    ofFloat x = .num (.double x h) := by
  rw [ofFloat, Number.ofFloat?, dif_pos h]
  rfl

theorem Json.inverts_double {x : Float} (h : x.isFinite = true) : Inverts asFloat? ofFloat x where
  read_write := by
    rw [ofFloat_of_finite h]
    rfl
  not_null := by
    rw [ofFloat_of_finite h]
    nofun

theorem Backoff.inverts {b : Backoff} (h : b.Finite) : Inverts ofJson? toJson b := by
  cases b with
  | fixed delay =>
    refine ⟨?_, nofun⟩
    rw [toJson, ofJson?]
    have hf {k w} := @field?_object k w [("type", .str "fixed"), ("delay_ms", delay.toJson)]
      (by simp)
    have htag := (Inverts.text "fixed").required (hf (k := "type") (by simp))
    have hdelay := delay.inverts.required (hf (k := "delay_ms") (by simp))
    simp only [htag, hdelay, Option.bind_eq_bind, Option.bind_some]
    rfl
  | linear delay =>
    refine ⟨?_, nofun⟩
    rw [toJson, ofJson?]
    have hf {k w} := @field?_object k w [("type", .str "linear"), ("delay_ms", delay.toJson)]
      (by simp)
    have htag := (Inverts.text "linear").required (hf (k := "type") (by simp))
    have hdelay := delay.inverts.required (hf (k := "delay_ms") (by simp))
    simp only [htag, hdelay, Option.bind_eq_bind, Option.bind_some]
    rfl
  | exponential initial multiplier limit =>
    refine ⟨?_, nofun⟩
    rw [toJson, ofJson?]
    have hf {k w} := @field?_record k [("type", some (.str "exponential")),
      ("initial_ms", some initial.toJson), ("multiplier", some (.ofFloat multiplier)),
      ("max_ms", limit.map Millis.toJson)] w (by simp)
    have htag := (Inverts.text "exponential").required (hf (k := "type") (by simp))
    have hinitial := initial.inverts.required (hf (k := "initial_ms") (by simp))
    have hmultiplier := (inverts_double h).required (hf (k := "multiplier") (by simp))
    have hlimit := Inverts.optional (o := limit) (fun ms _ => ms.inverts)
      (hf (k := "max_ms") (by simp))
    simp only [htag, hinitial, hmultiplier, hlimit, Option.bind_eq_bind, Option.bind_some]
    rfl

theorem RetryPolicy.inverts {p : RetryPolicy} (h : p.backoff.Finite) :
    Inverts ofJson? toJson p where
  read_write := by
    rw [toJson, ofJson?]
    have hf {k w} := @field?_object k w [("max_attempts", .ofNat p.maxAttempts.toNat),
      ("backoff", p.backoff.toJson), ("retry_on_timeout", .bool p.retryOnTimeout)] (by simp)
    have hattempts := (inverts_word32 p.maxAttempts.toNat_lt).required
      (hf (k := "max_attempts") (by simp))
    have hbackoff := (Backoff.inverts h).withDefault (hf (k := "backoff") (by simp)) default
    have hretry := (Inverts.flag p.retryOnTimeout).withDefault
      (hf (k := "retry_on_timeout") (by simp)) true
    simp only [hattempts, hbackoff, hretry, Option.bind_eq_bind, Option.bind_some,
      UInt32.ofNat_toNat]
    rfl
  not_null := nofun

namespace CallSpec

theorem readInputs_write (inputs : List (String × Expr)) :
    readInputs (.obj (inputs.map fun (k, e) => (k, e.toJson))) = some inputs := by
  change (inputs.map _).mapM _ = some inputs
  induction inputs with
  | nil => rfl
  | cons f rest ih =>
    obtain ⟨name, e⟩ := f
    rw [List.map_cons, List.mapM_cons, ih]
    simp only [e.inverts.read_write]
    rfl

theorem ofJson?_of_fields {c : CallSpec} {v : Json}
    (hf : ∀ {k w}, (k, w) ∈ c.fields → v.field? k = w) : ofJson? v = some c := by
  have htarget := (Inverts.text c.target).required (hf (k := "target") (by simp [fields]))
  have hinputs : v.withDefault "inputs" readInputs [] = some c.inputs := by
    rw [Json.withDefault, hf (k := "inputs")
      (w := some (.obj (c.inputs.map fun (k, e) => (k, e.toJson)))) (by simp [fields])]
    exact readInputs_write c.inputs
  have hbind := Inverts.optional (o := c.bind) (fun s _ => .text s)
    (hf (k := "bind") (by simp [fields]))
  have hcapture :=
    (Inverts.flag c.capture).withDefault (hf (k := "capture") (by simp [fields])) false
  rw [ofJson?]
  simp only [htarget, hinputs, hbind, hcapture, Option.bind_eq_bind, Option.bind_some]
  rfl

end CallSpec

namespace RecordSpec

theorem ofJson?_of_fields {r : RecordSpec} {v : Json}
    (hf : ∀ {k w}, (k, w) ∈ r.fields → v.field? k = w) : ofJson? v = some r := by
  have hrecord := (Inverts.text r.record).required (hf (k := "record") (by simp [fields]))
  have hpayload := Inverts.optional (o := r.payload) (fun e _ => e.inverts)
    (hf (k := "payload") (by simp [fields]))
  have hfilter := Inverts.optional (o := r.filter) (fun e _ => e.inverts)
    (hf (k := "filter") (by simp [fields]))
  have hbind := Inverts.optional (o := r.bind) (fun s _ => .text s)
    (hf (k := "bind") (by simp [fields]))
  have hcapture :=
    (Inverts.flag r.capture).withDefault (hf (k := "capture") (by simp [fields])) false
  rw [ofJson?]
  simp only [hrecord, hpayload, hfilter, hbind, hcapture, Option.bind_eq_bind, Option.bind_some]
  rfl

end RecordSpec

theorem Json.isFinite_of_asFloat? {v : Json} {x : Float} (h : v.asFloat? = some x) :
    x.isFinite = true := by
  obtain ⟨n, -, rfl⟩ := Option.map_eq_some_iff.mp h
  exact n.isFinite_toFloat

theorem exists_of_mapM {α β : Type} {read : α → Option β} {items : List α} {xs : List β}
    (h : items.mapM read = some xs) {x : β} (hx : x ∈ xs) : ∃ item ∈ items, read item = some x := by
  induction items generalizing xs with
  | nil =>
    cases h
    cases hx
  | cons item rest ih =>
    rw [List.mapM_cons] at h
    obtain ⟨y, hy, h⟩ := Option.bind_eq_some_iff.mp h
    obtain ⟨ys, hys, h⟩ := Option.bind_eq_some_iff.mp h
    cases h
    cases hx with
    | head => exact ⟨item, .head _, hy⟩
    | tail _ hx =>
      obtain ⟨found, hmem, hread⟩ := ih hys hx
      exact ⟨found, .tail _ hmem, hread⟩

theorem Backoff.finite_of_ofJson? {v : Json} {b : Backoff} (h : ofJson? v = some b) : b.Finite := by
  rw [ofJson?] at h
  obtain ⟨tag, -, h⟩ := Option.bind_eq_some_iff.mp h
  split at h
  · obtain ⟨delay, -, h⟩ := Option.bind_eq_some_iff.mp h
    cases h
    trivial
  · obtain ⟨delay, -, h⟩ := Option.bind_eq_some_iff.mp h
    cases h
    trivial
  · obtain ⟨initial, -, h⟩ := Option.bind_eq_some_iff.mp h
    obtain ⟨multiplier, hm, h⟩ := Option.bind_eq_some_iff.mp h
    obtain ⟨limit, -, h⟩ := Option.bind_eq_some_iff.mp h
    cases h
    obtain ⟨w, -, hw⟩ := Option.bind_eq_some_iff.mp hm
    exact isFinite_of_asFloat? hw
  · cases h

theorem RetryPolicy.finite_of_ofJson? {v : Json} {p : RetryPolicy} (h : ofJson? v = some p) :
    p.backoff.Finite := by
  rw [ofJson?] at h
  obtain ⟨attempts, -, h⟩ := Option.bind_eq_some_iff.mp h
  obtain ⟨backoff, hb, h⟩ := Option.bind_eq_some_iff.mp h
  obtain ⟨flag, -, h⟩ := Option.bind_eq_some_iff.mp h
  cases h
  rw [Json.withDefault] at hb
  split at hb
  · cases hb
    trivial
  · exact Backoff.finite_of_ofJson? hb

theorem Json.forall_of_optional {α : Type} {v : Json} {key : String} {read : Json → Option α}
    {P : α → Prop} {o : Option α} (hr : ∀ w x, read w = some x → P x)
    (h : v.optional key read = some o) : ∀ x ∈ o, P x := by
  rw [Json.optional] at h
  split at h
  · cases h
    exact fun x hx => absurd hx (Option.not_mem_none x)
  · cases h
    exact fun x hx => absurd hx (Option.not_mem_none x)
  · obtain ⟨x, hx, rfl⟩ := Option.map_eq_some_iff.mp h
    exact fun _ h => Option.some.inj h ▸ hr _ x hx

end FlowEngine
