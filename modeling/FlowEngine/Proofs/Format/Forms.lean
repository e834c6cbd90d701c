import FlowEngine.Proofs.Format.Steps

/-!
# The canonical form

The forms of written values, as a table of the fields of every object. `Form.Written` says that a
value has a form exactly: every field that is required or has a default is there, a field that is
optional is left out or holds something, and there is no other field; and so for every value inside
it. Only the value of a literal is arbitrary. Everything that is encoded has its form.
-/
namespace FlowEngine

inductive Form where
  | any
  | text
  | flag
  | oneOf (names : List String)
  | upTo (bound : Nat)
  | double
  | list (item : Form)
  | table (value : Form)
  | named (value : Form)
  | binding
  | expr
  | pattern
  | backoff
  | retryPolicy
  | branch
  | arm
  | lane
  | step
  | flow
  | failure
deriving DecidableEq

inductive Presence where
  | required
  | defaulted
  | optional
deriving DecidableEq

structure Slot where
  key : String
  presence : Presence
  form : Form

namespace Form

def callSlots : List Slot :=
  [⟨"target", .required, .text⟩, ⟨"inputs", .defaulted, .table .expr⟩, ⟨"bind", .optional, .text⟩,
    ⟨"capture", .defaulted, .flag⟩]

def recordSlots : List Slot :=
  [⟨"record", .required, .text⟩, ⟨"payload", .optional, .expr⟩, ⟨"filter", .optional, .expr⟩,
    ⟨"bind", .optional, .text⟩, ⟨"capture", .defaulted, .flag⟩]

def millis : Form := .upTo 18_446_744_073_709_551_616

def actions : List (String × List Slot) :=
  [("ai-call", callSlots),
    ("agent-call", callSlots),
    ("tool-call", callSlots),
    ("script", [⟨"expr", .required, .expr⟩, ⟨"bind", .optional, .text⟩]),
    ("set-variable",
      [⟨"target", .required, .text⟩, ⟨"value", .required, .expr⟩, ⟨"declare", .defaulted, .flag⟩]),
    ("db-create", recordSlots),
    ("db-update", recordSlots),
    ("db-delete", recordSlots),
    ("db-query", recordSlots),
    ("conditional",
      [⟨"branches", .required, .list .branch⟩, ⟨"otherwise", .optional, .list .step⟩]),
    ("match",
      [⟨"subject", .required, .expr⟩, ⟨"arms", .required, .list .arm⟩,
        ⟨"otherwise", .optional, .list .step⟩]),
    ("guard", [⟨"condition", .required, .expr⟩, ⟨"body", .required, .list .step⟩]),
    ("repeat-times",
      [⟨"count", .required, .expr⟩, ⟨"counter", .optional, .text⟩,
        ⟨"body", .required, .list .step⟩]),
    ("repeat-for-each",
      [⟨"collection", .required, .expr⟩, ⟨"binding", .required, .binding⟩,
        ⟨"index", .optional, .text⟩, ⟨"body", .required, .list .step⟩]),
    ("for-each",
      [⟨"collection", .required, .expr⟩, ⟨"binding", .required, .binding⟩,
        ⟨"body", .required, .list .step⟩, ⟨"join", .defaulted, .oneOf ["wait-all", "fail-fast"]⟩,
        ⟨"collect", .optional, .expr⟩]),
    ("parallel",
      [⟨"branches", .required, .list .lane⟩,
        ⟨"join", .defaulted, .oneOf ["wait-all", "fail-fast"]⟩]),
    ("transaction",
      [⟨"body", .required, .list .step⟩, ⟨"on_error", .optional, .list .step⟩])]

def tag (key name : String) : Slot := ⟨key, .required, .oneOf [name]⟩

def stepSlots (kind : String) (slots : List Slot) : List Slot :=
  [⟨"id", .required, .text⟩, tag "kind" kind] ++ slots
    ++ [⟨"retry", .optional, .retryPolicy⟩, ⟨"timeout_ms", .optional, millis⟩]

def variants : Form → List (List Slot)
  | expr =>
    [[tag "type" "literal", ⟨"value", .required, .any⟩],
      [tag "type" "var", ⟨"path", .required, .text⟩],
      [tag "type" "unary", ⟨"op", .required, .oneOf ["not", "neg"]⟩,
        ⟨"operand", .required, .expr⟩],
      [tag "type" "binary",
        ⟨"op", .required, .oneOf ["add", "sub", "mul", "div", "mod", "eq", "ne", "lt", "le", "gt",
          "ge", "and", "or", "in"]⟩,
        ⟨"left", .required, .expr⟩, ⟨"right", .required, .expr⟩],
      [tag "type" "list", ⟨"items", .required, .list .expr⟩],
      [tag "type" "object", ⟨"fields", .required, .list (.named .expr)⟩],
      [tag "type" "query", ⟨"expression", .required, .text⟩]]
  | pattern =>
    [[tag "type" "literal", ⟨"value", .required, .any⟩],
      [tag "type" "ok", ⟨"bind", .optional, .text⟩],
      [tag "type" "err", ⟨"bind", .optional, .text⟩]]
  | backoff =>
    [[tag "type" "fixed", ⟨"delay_ms", .required, millis⟩],
      [tag "type" "linear", ⟨"delay_ms", .required, millis⟩],
      [tag "type" "exponential", ⟨"initial_ms", .required, millis⟩,
        ⟨"multiplier", .required, .double⟩, ⟨"max_ms", .optional, millis⟩]]
  | retryPolicy =>
    [[⟨"max_attempts", .required, .upTo 4_294_967_296⟩, ⟨"backoff", .defaulted, .backoff⟩,
      ⟨"retry_on_timeout", .defaulted, .flag⟩]]
  | branch => [[⟨"condition", .required, .expr⟩, ⟨"body", .required, .list .step⟩]]
  | arm => [[⟨"pattern", .required, .pattern⟩, ⟨"body", .required, .list .step⟩]]
  | lane => [[⟨"steps", .required, .list .step⟩, ⟨"collect", .optional, .expr⟩]]
  | step => actions.map fun (kind, slots) => stepSlots kind slots
  | flow =>
    [[⟨"name", .required, .text⟩, ⟨"description", .optional, .text⟩,
      ⟨"steps", .required, .list .step⟩, ⟨"on_error", .optional, .list .step⟩]]
  | failure =>
    [[⟨"kind", .required, .oneOf ["unknown_identifier", "validation", "step_execution", "timeout",
        "match_exhausted", "nested_transaction", "retry_exhausted", "cancellation",
        "configuration", "store", "not_found", "serialization"]⟩,
      ⟨"message", .required, .text⟩, ⟨"step_id", .optional, .text⟩,
      ⟨"is_rollback", .defaulted, .flag⟩, ⟨"cause", .optional, .failure⟩]]
  | any | text | flag | oneOf _ | upTo _ | double | list _ | table _ | named _ | binding => []

inductive Written : Form → Json → Prop
  | any (v : Json) : Written .any v
  | text (s : String) : Written .text (.str s)
  | flag (b : Bool) : Written .flag (.bool b)
  | oneOf {names : List String} {s : String} (mem : s ∈ names) : Written (.oneOf names) (.str s)
  | upTo {bound n : Nat} (lt : n < bound) : Written (.upTo bound) (.ofNat n)
  | double {x : Float} (finite : x.isFinite = true) : Written .double (.num (.double x finite))
  | list {form : Form} {items : List Json} (each : ∀ w ∈ items, Written form w) :
    Written (.list form) (.arr items)
  | table {form : Form} {fields : List (String × Json)} (each : ∀ f ∈ fields, Written form f.2) :
    Written (.table form) (.obj fields)
  | named {form : Form} {w : Json} (name : String) (value : Written form w) :
    Written (.named form) (.arr [.str name, w])
  | name (s : String) : Written .binding (.str s)
  | names {v : Json} (each : Written (.list .text) v) : Written .binding v
  | object {form : Form} {slots : List Slot} {v : Json} (variant : slots ∈ form.variants)
    /- what is there has its form -/
    (held : ∀ s ∈ slots, ∀ w, v.field? s.key = some w → Written s.form w)
    /- defaults are filled in -/
    (filled : ∀ s ∈ slots, s.presence ≠ .optional → ∃ w, v.field? s.key = some w)
    /- empty options are dropped -/
    (dropped : ∀ s ∈ slots, s.presence = .optional → v.field? s.key ≠ some .null)
    /- nothing else is written -/
    (closed : ∀ key w, v.field? key = some w → ∃ s ∈ slots, s.key = key) :
    Written form v

end Form

inductive Slot.Fits : Slot → String × Option Json → Prop
  | always {key : String} {presence : Presence} {form : Form} {w : Json}
    (required : presence ≠ .optional) (written : form.Written w) :
    Fits ⟨key, presence, form⟩ (key, some w)
  | shown {key : String} {form : Form} {w : Json} (written : form.Written w) (set : w ≠ .null) :
    Fits ⟨key, .optional, form⟩ (key, some w)
  | dropped {key : String} {form : Form} : Fits ⟨key, .optional, form⟩ (key, none)

namespace Slot

variable {s : Slot} {e : String × Option Json}

theorem Fits.key_eq (h : s.Fits e) : s.key = e.1 := by
  cases h <;> rfl

section

variable {key : String} {form : Form} {w : Json} (written : form.Written w)
include written

theorem Fits.required : Fits ⟨key, .required, form⟩ (key, some w) := .always nofun written

theorem Fits.defaulted : Fits ⟨key, .defaulted, form⟩ (key, some w) := .always nofun written

end

theorem Fits.option {α : Type} {key : String} {form : Form} {read : Json → Option α}
    {write : α → Json} {o : Option α} (hi : ∀ x ∈ o, Json.Inverts read write x)
    (hw : ∀ x ∈ o, form.Written (write x)) : Fits ⟨key, .optional, form⟩ (key, o.map write) := by
  cases o with
  | none => exact .dropped
  | some x => exact .shown (hw x rfl) (hi x rfl).not_null

end Slot

theorem Slot.exists_of_forall₂ {slots : List Slot} {entries : List (String × Option Json)}
    (h : List.Forall₂ Slot.Fits slots entries) :
    (∀ s ∈ slots, ∃ e ∈ entries, s.Fits e) ∧ ∀ e ∈ entries, ∃ s ∈ slots, s.Fits e := by
  induction h with
  | nil => exact ⟨nofun, nofun⟩
  | cons hfit _ ih =>
    constructor
    · intro s hs
      obtain rfl | hs := List.mem_cons.mp hs
      · exact ⟨_, .head _, hfit⟩
      · obtain ⟨e, he, hfit⟩ := ih.1 s hs
        exact ⟨e, .tail _ he, hfit⟩
    · intro e he
      obtain rfl | he := List.mem_cons.mp he
      · exact ⟨_, .head _, hfit⟩
      · obtain ⟨s, hs, hfit⟩ := ih.2 e he
        exact ⟨s, .tail _ hs, hfit⟩

theorem Form.Written.record {form : Form} {slots : List Slot} (variant : Nat)
    (hv : form.variants[variant]? = some slots) {entries : List (String × Option Json)}
    (hn : (entries.map Prod.fst).Nodup) (hfits : List.Forall₂ Slot.Fits slots entries) :
    form.Written (Json.record entries) := by
  obtain ⟨hentry, hslot⟩ := Slot.exists_of_forall₂ hfits
  refine .object (List.mem_of_getElem? hv) ?_ ?_ ?_ ?_
  · intro s hs w hw
    obtain ⟨⟨k, o⟩, he, hfit⟩ := hentry s hs
    have hk : s.key = k := hfit.key_eq
    rw [hk, Json.field?_record hn he] at hw
    subst hw
    cases hfit with
    | always _ written => exact written
    | shown written _ => exact written
  · intro s hs hp
    obtain ⟨⟨k, o⟩, he, hfit⟩ := hentry s hs
    have hk : s.key = k := hfit.key_eq
    rw [hk, Json.field?_record hn he]
    cases hfit with
    | always => exact ⟨_, rfl⟩
    | shown => exact ⟨_, rfl⟩
    | dropped => exact (hp rfl).elim
  · intro s hs hp
    obtain ⟨⟨k, o⟩, he, hfit⟩ := hentry s hs
    have hk : s.key = k := hfit.key_eq
    rw [hk, Json.field?_record hn he]
    cases hfit with
    | always required => exact (required hp).elim
    | shown _ set => exact fun h => set (Option.some.inj h)
    | dropped => nofun
  · intro key w hw
    obtain ⟨s, hs, hfit⟩ := hslot _ (Json.mem_of_field?_record hw)
    exact ⟨s, hs, hfit.key_eq⟩

theorem Form.Written.entries {form : Form} {slots : List Slot} (variant : Nat)
    (hv : form.variants[variant]? = some slots) {entries : List (String × Json)}
    (hn : (entries.map Prod.fst).Nodup)
    (hfits : List.Forall₂ (fun s e => Slot.Fits s (e.1, some e.2)) slots entries) :
    form.Written (Json.object entries) := by
  have hentries : Json.record (entries.map fun e => (e.1, some e.2)) = Json.object entries := by
    simp [Json.record, List.filterMap_map]
  rw [← hentries]
  refine .record variant hv ?_ (List.forall₂_map_right_iff.mpr hfits)
  rwa [List.map_map]

end FlowEngine
