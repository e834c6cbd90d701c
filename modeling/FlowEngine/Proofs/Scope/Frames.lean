import FlowEngine.Control
import FlowEngine.Flow.Validity

/-!
# What changes of a scope chain keep

Every change of a scope chain writes one name in one frame. `Scope.Keeps` says what such
writes leave alone, however many there are: the frames, the names that all frames but the
innermost one bind, and the values of shadowed bindings.
-/
namespace FlowEngine

namespace Fields

variable {α : Type}

theorem has_insert (key other : String) (value : α) (fields : List (String × α)) :
    has other (insert key value fields) = (decide (other = key) || has other fields) := by
  by_cases h : other = key
  · subst h
    simp [has, get?_insert_self]
  · simp [has, get?_insert_of_ne value fields h, h]

theorem has_insert_of_has {key other : String} {value : α} {fields : List (String × α)}
    (h : has other fields = true) : has other (insert key value fields) = true := by
  rw [has_insert, h, Bool.or_true]

theorem has_insertAll_of_has {name : String} (added : List (String × α)) {fields : List (String × α)}
    (h : has name fields = true) : has name (insertAll fields added) = true := by
  induction added generalizing fields with
  | nil => exact h
  | cons p rest ih => exact ih (has_insert_of_has h)

end Fields

namespace Scope

structure Rooted (s : Scope) : Prop where
  state : Fields.has Target.stateName s.flow = true
  step : Fields.has stepName s.flow = true

theorem rooted_ofBindings (inputs : List (String × Json)) : (ofBindings inputs).Rooted where
  state := Fields.has_insertAll_of_has inputs (by decide)
  step := Fields.has_insertAll_of_has inputs (by decide)

/-- What one scope chain keeps of another. Frames are counted from the innermost one. -/
structure Keeps (s s' : Scope) : Prop where
  /-- The frames are as many as before, and of the same kinds. -/
  kinds : s'.frames.map Frame.kind = s.frames.map Frame.kind
  /-- A frame that is not the innermost one binds the names that it bound. -/
  outer {i : Nat} {f f' : Frame} : 0 < i → s.frames[i]? = some f → s'.frames[i]? = some f' →
    ∀ name, f'.binds name = f.binds name
  innermost {f f' : Frame} : s.frames[0]? = some f → s'.frames[0]? = some f' →
    ∀ name, f.binds name = true → f'.binds name = true
  /-- A binding that a more inner frame shadowed has its value, but for the flow-wide objects. -/
  shadowed {i j : Nat} {f g g' : Frame} {name : String} : i < j →
    s.frames[i]? = some f → f.binds name = true →
    s.frames[j]? = some g → s'.frames[j]? = some g' →
    (j + 1 = s.depth → name ≠ Target.stateName ∧ name ≠ stepName) →
    Fields.get? name g'.bindings = Fields.get? name g.bindings

@[simp] theorem length_frames (s : Scope) : s.frames.length = s.depth := by
  simp [frames, depth]

theorem getElem?_frames_flow (s : Scope) : s.frames[s.inner.length]? = some ⟨.flow, s.flow⟩ := by
  simp [frames]

variable {s s' s'' : Scope}

def Writes (name : String) (value : Json) (s s' : Scope) : Prop :=
  ∃ k f, s.frames[k]? = some f ∧ s'.frames = s.frames.set k (f.bind name value)

theorem Writes.map_frames {β : Type} {name : String} {value : Json} (h : s.Writes name value s')
    {g : Frame → β} (hg : ∀ f, g (f.bind name value) = g f) : s'.frames.map g = s.frames.map g := by
  obtain ⟨k, f, hf, hset⟩ := h
  obtain ⟨hk, rfl⟩ := List.getElem?_eq_some_iff.mp hf
  have hk' : k < (s.frames.map g).length := by rwa [List.length_map]
  have hself : (s.frames.map g)[k] = g s.frames[k] := List.getElem_map g
  rw [hset, List.map_set, hg, ← hself, List.set_getElem_self]

namespace Keeps

theorem refl (s : Scope) : s.Keeps s where
  kinds := rfl
  outer _ hf hf' name := by rw [Option.some.inj (hf.symm.trans hf')]
  innermost hf hf' name h := by rwa [← Option.some.inj (hf.symm.trans hf')]
  shadowed _ _ _ hg hg' _ := by rw [Option.some.inj (hg.symm.trans hg')]

theorem depth_eq (h : s.Keeps s') : s'.depth = s.depth := by
  simpa using congrArg List.length h.kinds

theorem exists_frame (h : s.Keeps s') {i : Nat} {f : Frame} (hf : s.frames[i]? = some f) :
    ∃ f', s'.frames[i]? = some f' := by
  have hi := (List.getElem?_eq_some_iff.mp hf).1
  rw [length_frames, ← h.depth_eq, ← length_frames] at hi
  exact ⟨_, List.getElem?_eq_getElem hi⟩

theorem binds (h : s.Keeps s') {i : Nat} {f f' : Frame} (hf : s.frames[i]? = some f)
    (hf' : s'.frames[i]? = some f') {name : String} (hb : f.binds name = true) :
    f'.binds name = true := by
  cases i with
  | zero => exact h.innermost hf hf' name hb
  | succ i => rwa [h.outer (Nat.succ_pos i) hf hf']

theorem trans (h : s.Keeps s') (h' : s'.Keeps s'') : s.Keeps s'' where
  kinds := h'.kinds.trans h.kinds
  outer hi hf hf'' name := by
    obtain ⟨f', hf'⟩ := h.exists_frame hf
    rw [h'.outer hi hf' hf'', h.outer hi hf hf']
  innermost hf hf'' name hb := by
    obtain ⟨f', hf'⟩ := h.exists_frame hf
    exact h'.innermost hf' hf'' name (h.innermost hf hf' name hb)
  shadowed hij hf hb hg hg'' hname := by
    obtain ⟨f', hf'⟩ := h.exists_frame hf
    obtain ⟨g', hg'⟩ := h.exists_frame hg
    rw [h'.shadowed hij hf' (h.binds hf hf' hb) hg' hg'' (by rwa [h.depth_eq]),
      h.shadowed hij hf hb hg hg' hname]

theorem rooted (h : s.Keeps s') (hs : s.Rooted) : s'.Rooted := by
  have hlength : s'.inner.length = s.inner.length := Nat.succ.inj h.depth_eq
  have hflow' : s'.frames[s.inner.length]? = some ⟨.flow, s'.flow⟩ :=
    hlength ▸ s'.getElem?_frames_flow
  have hkeeps {name : String} (hb : Fields.has name s.flow = true) :
      Fields.has name s'.flow = true :=
    h.binds s.getElem?_frames_flow hflow' hb
  exact ⟨hkeeps hs.state, hkeeps hs.step⟩

/-- One name is written in one frame: in the innermost one, or where it is bound already; and no
more inner frame binds it, unless it names a flow-wide object. -/
theorem of_write {k : Nat} {f : Frame} {name : String} {value : Json}
    (hf : s.frames[k]? = some f) (hset : s'.frames = s.frames.set k (f.bind name value))
    (hbound : k = 0 ∨ f.binds name = true)
    (hshadow : (∀ i < k, ∀ g, s.frames[i]? = some g → g.binds name = false) ∨
      k + 1 = s.depth ∧ (name = Target.stateName ∨ name = stepName)) : s.Keeps s' := by
  have hk := (List.getElem?_eq_some_iff.mp hf).1
  have hother {i : Nat} (hi : i ≠ k) : s'.frames[i]? = s.frames[i]? := by
    rw [hset, List.getElem?_set_ne hi.symm]
  have hself : s'.frames[k]? = some (f.bind name value) := by
    rw [hset, List.getElem?_set_self hk]
  have hmore (other : String) :
      (f.bind name value).binds other = (decide (other = name) || f.binds other) :=
    Fields.has_insert name other value f.bindings
  refine ⟨?_, fun {i g g'} hi hg hg' other => ?_, fun {g g'} hg hg' other hb => ?_,
    fun {i j g u u' other} hij hg hb hu hu' hother' => ?_⟩
  · exact Writes.map_frames ⟨k, f, hf, hset⟩ fun _ => rfl
  · by_cases h : i = k
    · subst h
      cases hf.symm.trans hg
      cases hself.symm.trans hg'
      rw [hmore]
      by_cases hname : other = name
      · subst hname
        rw [hbound.resolve_left (Nat.ne_of_gt hi), Bool.or_true]
      · simp [hname]
    · rw [hother h] at hg'
      rw [Option.some.inj (hg.symm.trans hg')]
  · by_cases h : 0 = k
    · subst h
      cases hf.symm.trans hg
      cases hself.symm.trans hg'
      rw [hmore, hb, Bool.or_true]
    · rw [hother h] at hg'
      rwa [← Option.some.inj (hg.symm.trans hg')]
  · by_cases h : j = k
    · subst h
      cases hf.symm.trans hu
      cases hself.symm.trans hu'
      refine Fields.get?_insert_of_ne value f.bindings ?_
      rintro rfl
      rcases hshadow with hnone | ⟨hdepth, hname⟩
      · rw [hnone i hij g hg] at hb
        cases hb
      · obtain ⟨hstate, hstep⟩ := hother' hdepth
        exact hname.elim hstate hstep
    · rw [hother h] at hu'
      rw [Option.some.inj (hu.symm.trans hu')]

/-- What is done inside of a frame keeps what the frame was opened in. -/
theorem leave {e : Scope} {f : Frame} (he : e.frames = f :: s.frames) (h : e.Keeps s') :
    s.Keeps s'.leave := by
  have hdepth : e.depth = s.depth + 1 := by
    rw [← length_frames, he, List.length_cons, length_frames]
  have hinner : s'.inner ≠ [] := by
    intro hnil
    have := h.depth_eq
    rw [hdepth] at this
    simp [depth, hnil] at this
  obtain ⟨g, inner, hcons⟩ := List.exists_cons_of_ne_nil hinner
  have hframes : s'.frames = g :: s'.leave.frames := by
    simp [frames, Scope.leave, hcons]
  have hold (i : Nat) : e.frames[i + 1]? = s.frames[i]? := by rw [he, List.getElem?_cons_succ]
  have hnew (i : Nat) : s'.frames[i + 1]? = s'.leave.frames[i]? := by
    rw [hframes, List.getElem?_cons_succ]
  refine ⟨?_, fun {i _ _} _ hf hf' name => ?_, fun hf hf' name hb => ?_,
    fun {i j _ _ _ _} hij hf hb hg hg' hname => ?_⟩
  · have hkinds := h.kinds
    rw [he, hframes] at hkinds
    exact (List.cons.inj hkinds).2
  · exact h.outer (Nat.succ_pos i) ((hold i).trans hf) ((hnew i).trans hf') name
  · rwa [h.outer Nat.one_pos ((hold 0).trans hf) ((hnew 0).trans hf') name]
  · refine h.shadowed (Nat.succ_lt_succ hij) ((hold i).trans hf) hb ((hold j).trans hg)
      ((hnew j).trans hg') fun hj => hname ?_
    rw [hdepth] at hj
    exact Nat.succ.inj hj

end Keeps

/-! ## The writes of a scope chain -/

theorem frames_declareLocal (name : String) (value : Json) (s : Scope) : ∃ f,
    s.frames[0]? = some f ∧ (s.declareLocal name value).frames = s.frames.set 0 (f.bind name value) := by
  obtain ⟨inner, flow⟩ := s
  cases inner with
  | nil => exact ⟨_, rfl, rfl⟩
  | cons f rest => exact ⟨f, rfl, rfl⟩

theorem writes_declareLocal (name : String) (value : Json) (s : Scope) :
    s.Writes name value (s.declareLocal name value) := by
  obtain ⟨f, hf, hset⟩ := s.frames_declareLocal name value
  exact ⟨0, f, hf, hset⟩

theorem keeps_declareLocal (name : String) (value : Json) (s : Scope) :
    s.Keeps (s.declareLocal name value) := by
  obtain ⟨f, hf, hset⟩ := s.frames_declareLocal name value
  exact .of_write hf hset (Or.inl rfl) (Or.inl fun i hi => absurd hi (Nat.not_lt_zero i))

theorem keeps_declareAll (bindings : List Control.Binding) (s : Scope) :
    s.Keeps (Control.declareAll bindings s) := by
  induction bindings generalizing s with
  | nil => exact .refl s
  | cons b rest ih => exact (s.keeps_declareLocal b.1 b.2).trans (ih _)

theorem updateFrame?_eq_some {test : Frame → Bool} {change : Frame → Frame} {fs fs' : List Frame}
    (h : updateFrame? test change fs = some fs') : ∃ k f, fs[k]? = some f ∧ test f = true ∧
      fs' = fs.set k (change f) ∧ ∀ i < k, ∀ g, fs[i]? = some g → test g = false := by
  induction fs generalizing fs' with
  | nil => cases h
  | cons f rest ih =>
      rw [updateFrame?] at h
      split at h
      · rename_i hf
        cases h
        exact ⟨0, f, rfl, hf, rfl, fun i hi => absurd hi (Nat.not_lt_zero i)⟩
      · rename_i hf
        obtain ⟨more, hmore, rfl⟩ := Option.map_eq_some_iff.mp h
        obtain ⟨k, g, hg, htest, rfl, hbefore⟩ := ih hmore
        refine ⟨k + 1, g, hg, htest, rfl, fun i hi u hu => ?_⟩
        cases i with
        | zero =>
            cases hu
            exact Bool.eq_false_iff.mpr hf
        | succ i => exact hbefore i (Nat.lt_of_succ_lt_succ hi) u hu

theorem updateFrame?_eq_none {test : Frame → Bool} {change : Frame → Frame} {fs : List Frame}
    (h : updateFrame? test change fs = none) {f : Frame} (hf : f ∈ fs) : test f = false := by
  induction fs with
  | nil => cases hf
  | cons g rest ih =>
      rw [updateFrame?] at h
      split at h
      · cases h
      · rename_i hg
        rcases List.mem_cons.mp hf with rfl | hf
        · exact Bool.eq_false_iff.mpr hg
        · exact ih (Option.map_eq_none_iff.mp h) hf

theorem frames_flow (name : String) (value : Json) (s : Scope) :
    frames { s with flow := Fields.insert name value s.flow } =
      s.frames.set s.inner.length (Frame.bind name value ⟨.flow, s.flow⟩) := by
  simp [frames, Frame.bind]

theorem frames_updateFrame? {test : Frame → Bool} {change : Frame → Frame} {inner : List Frame}
    (h : updateFrame? test change s.inner = some inner) : ∃ k f, s.frames[k]? = some f ∧
      test f = true ∧ frames { s with inner } = s.frames.set k (change f) ∧
      ∀ i < k, ∀ g, s.frames[i]? = some g → test g = false := by
  obtain ⟨k, f, hf, htest, rfl, hbefore⟩ := updateFrame?_eq_some h
  have hk := (List.getElem?_eq_some_iff.mp hf).1
  have hinner {i : Nat} (hi : i < s.inner.length) : s.frames[i]? = s.inner[i]? := by
    rw [frames, List.getElem?_append_left hi]
  refine ⟨k, f, (hinner hk).trans hf, htest, ?_, fun i hi g hg => ?_⟩
  · rw [frames, frames, List.set_append_left _ _ hk]
  · exact hbefore i hi g ((hinner (Nat.lt_trans hi hk)).symm.trans hg)

theorem writes_flow (name : String) (value : Json) (s : Scope) :
    s.Writes name value { s with flow := Fields.insert name value s.flow } :=
  ⟨_, _, s.getElem?_frames_flow, s.frames_flow name value⟩

/-- The frame that an assignment writes is the innermost one that binds the name, or the innermost
one of all when none does. -/
theorem frames_assign (name : String) (value : Json) (s : Scope) : ∃ k f, s.frames[k]? = some f ∧
    (s.assign name value).frames = s.frames.set k (f.bind name value) ∧
    (f.binds name = true ∨ k = 0 ∧ s.isBound name = false) ∧
    ∀ i < k, ∀ g, s.frames[i]? = some g → g.binds name = false := by
  unfold assign
  split
  · rename_i inner h
    obtain ⟨k, f, hf, hbinds, hset, hbefore⟩ := frames_updateFrame? h
    exact ⟨k, f, hf, hset, Or.inl hbinds, hbefore⟩
  · rename_i h
    split
    · rename_i hbound
      refine ⟨_, _, s.getElem?_frames_flow, s.frames_flow name value, Or.inl hbound,
        fun i hi g hg => ?_⟩
      rw [frames, List.getElem?_append_left hi] at hg
      exact updateFrame?_eq_none h (List.mem_of_getElem? hg)
    · rename_i hunbound
      obtain ⟨f, hf, hset⟩ := s.frames_declareLocal name value
      have hnone : s.isBound name = false := by
        refine List.any_eq_false.mpr fun f hf => ?_
        rcases List.mem_append.mp hf with hinner | hflow
        · rw [updateFrame?_eq_none h hinner]
          exact Bool.false_ne_true
        · rwa [List.mem_singleton.mp hflow]
      exact ⟨0, f, hf, hset, Or.inr ⟨rfl, hnone⟩, fun i hi => absurd hi (Nat.not_lt_zero i)⟩

theorem writes_assign (name : String) (value : Json) (s : Scope) :
    s.Writes name value (s.assign name value) := by
  obtain ⟨k, f, hf, hset, -⟩ := s.frames_assign name value
  exact ⟨k, f, hf, hset⟩

theorem writes_declare {kind : ScopeKind} {name : String} {value : Json}
    (h : s.declare kind name value = .ok s') : s.Writes name value s' := by
  unfold declare at h
  split at h
  · rename_i inner hinner
    cases h
    obtain ⟨k, f, hf, -, hset, -⟩ := frames_updateFrame? hinner
    exact ⟨k, f, hf, hset⟩
  · split at h
    · cases h
      exact s.writes_flow name value
    · cases h

theorem keeps_assign (name : String) (value : Json) (s : Scope) :
    s.Keeps (s.assign name value) := by
  obtain ⟨k, f, hf, hset, howner, hbefore⟩ := s.frames_assign name value
  exact .of_write hf hset (howner.symm.imp_left And.left) (Or.inl hbefore)

theorem keeps_of_flow {name : String} {value : Json} (hbound : Fields.has name s.flow = true)
    (hname : name = Target.stateName ∨ name = stepName) :
    s.Keeps { s with flow := Fields.insert name value s.flow } :=
  .of_write s.getElem?_frames_flow (s.frames_flow name value) (Or.inr hbound) (Or.inr ⟨rfl, hname⟩)

theorem keeps_setStateField (field : String) (value : Json) (h : s.Rooted) :
    s.Keeps (s.setStateField field value) :=
  keeps_of_flow h.state (Or.inl rfl)

theorem keeps_recordOutput (id : String) (output : Json) (h : s.Rooted) :
    s.Keeps (s.recordOutput id output) :=
  keeps_of_flow h.step (Or.inr rfl)

/-- A new frame comes before the frames that it is opened in. -/
theorem frames_enter (kind : ScopeKind) (bindings : List Control.Binding) (s : Scope) :
    ∃ f, (Control.declareAll bindings (s.push kind)).frames = f :: s.frames := by
  suffices h : ∀ e : Scope, (∃ f, e.frames = f :: s.frames) →
      ∃ f, (Control.declareAll bindings e).frames = f :: s.frames from h _ ⟨⟨kind, []⟩, rfl⟩
  induction bindings with
  | nil => exact fun e he => he
  | cons b rest ih =>
      rintro e ⟨f, hf⟩
      obtain ⟨g, -, hset⟩ := e.frames_declareLocal b.1 b.2
      rw [hf] at hset
      exact ih _ ⟨_, hset⟩

theorem rooted_enter (kind : ScopeKind) (bindings : List Control.Binding) (h : s.Rooted) :
    (Control.declareAll bindings (s.push kind)).Rooted :=
  (keeps_declareAll bindings (s.push kind)).rooted ⟨h.state, h.step⟩

def under (f : Frame) (s : Scope) : Scope := { s with inner := f :: s.inner }

@[simp] theorem frames_under (f : Frame) (s : Scope) : (s.under f).frames = f :: s.frames := rfl

@[simp] theorem leave_under (f : Frame) (s : Scope) : (s.under f).leave = s := rfl

theorem declareAll_push (bindings : List Control.Binding) (kind : ScopeKind) (s : Scope) :
    Control.declareAll bindings (s.push kind) = s.under ⟨kind, Fields.ofList bindings⟩ := by
  suffices h : ∀ fields, Control.declareAll bindings (s.under ⟨kind, fields⟩) =
      s.under ⟨kind, Fields.insertAll fields bindings⟩ from h []
  induction bindings with
  | nil => exact fun _ => rfl
  | cons b rest ih => exact fun fields => ih (Fields.insert b.1 b.2 fields)

end Scope
end FlowEngine

/-!
## Names and paths

A variable path is looked up through its first segment, from the innermost frame outwards, and the
rest of it goes down into the value. What the flow scope holds is found as long as no inner frame
binds the name.
-/
namespace FlowEngine

namespace Text

variable {c : Char} {cs : List Char}

theorem split_append (h : c ∉ cs) (rest : List Char) :
    split c (cs ++ c :: rest) = cs :: split c rest := by
  induction cs with
  | nil =>
      rw [List.nil_append, split]
      have hne : split c rest ≠ [] := by
        have := length_split c rest
        intro hnil
        simp [hnil] at this
      obtain ⟨piece, more, hsplit⟩ := List.exists_cons_of_ne_nil hne
      simp [hsplit]
  | cons d cs ih =>
      obtain ⟨hd, hcs⟩ := List.ne_and_not_mem_of_not_mem_cons h
      rw [List.cons_append, split, ih hcs]
      exact if_neg (Ne.symm hd)

theorem split_of_not_mem (h : c ∉ cs) : split c cs = [cs] := by
  induction cs with
  | nil => rfl
  | cons d cs ih =>
      obtain ⟨hd, hcs⟩ := List.ne_and_not_mem_of_not_mem_cons h
      rw [split, ih hcs]
      exact if_neg (Ne.symm hd)

end Text

theorem split_of_reachable {name : String} (h : reachable name = true) :
    Text.split '.' name.toList = [name.toList] := by
  apply Text.split_of_not_mem
  simp only [reachable, Bool.and_eq_true, Bool.not_eq_true', List.contains_eq_mem] at h
  exact of_decide_eq_false h.2

theorem toList_ne_nil_of_reachable {name : String} (h : reachable name = true) :
    name.toList ≠ [] := by
  intro hnil
  rw [String.toList_eq_nil_iff.mp hnil] at h
  cases h

namespace Scope

variable {name : String} {s : Scope}

def hides (name : String) (s : Scope) : Bool := s.inner.any (Frame.binds name)

def innerLookup? (name : String) (s : Scope) : Option Json :=
  s.inner.findSome? fun f => Fields.get? name f.bindings

theorem lookup?_eq (name : String) (s : Scope) :
    s.lookup? name = (s.innerLookup? name).or (Fields.get? name s.flow) := by
  simp [lookup?, innerLookup?, frames, List.findSome?_append]

theorem hides_eq (name : String) (s : Scope) : s.hides name = (s.innerLookup? name).isSome := by
  rw [Bool.eq_iff_iff, hides, innerLookup?, List.any_eq_true, List.findSome?_isSome_iff]
  rfl

/-- A name that no inner frame binds is looked up in the flow scope. -/
theorem lookup?_of_not_hides (h : s.hides name = false) :
    s.lookup? name = Fields.get? name s.flow := by
  rw [hides_eq, Option.isSome_eq_false_iff, Option.isNone_iff_eq_none] at h
  rw [lookup?_eq, h, Option.none_or]

/-- The flow scope does not matter for a name that some inner frame binds. -/
theorem lookup?_congr_of_hides {s' : Scope} (hinner : s'.inner = s.inner)
    (h : s.hides name = true) : s'.lookup? name = s.lookup? name := by
  rw [hides_eq, Option.isSome_iff_exists] at h
  obtain ⟨v, hv⟩ := h
  have hv' : s'.innerLookup? name = some v := by
    rw [innerLookup?, hinner]
    exact hv
  rw [lookup?_eq, lookup?_eq, hv, hv', Option.some_or, Option.some_or]

/-- The first segment of a path is looked up, and the others are followed. -/
theorem evaluate_var {path : String} {head : List Char} {rest : List (List Char)} {v : Json}
    (hsplit : Text.split '.' path.toList = head :: rest) (hhead : head ≠ [])
    (h : s.lookup? (String.ofList head) = some v) :
    Control.evaluate (.var path) s = .ok (follow v rest) := by
  have hpath : s.resolvePath path = .ok (follow v rest) := by
    rw [resolvePath, hsplit]
    split
    · rename_i hnil
      cases hnil
    · rename_i hcons
      cases hcons
      exact absurd rfl hhead
    · rename_i hcons
      cases hcons
      rw [resolve, h]
      rfl
  rw [Control.evaluate, Expr.eval, hpath]
  rfl

theorem evaluate_name {v : Json} (hname : reachable name = true) (h : s.lookup? name = some v) :
    Control.evaluate (.var name) s = .ok v :=
  evaluate_var (split_of_reachable hname) (toList_ne_nil_of_reachable hname)
    (by rwa [String.ofList_toList])

/-! ## What is found after a write -/

theorem lookup?_declareLocal_self (name : String) (v : Json) (s : Scope) :
    (s.declareLocal name v).lookup? name = some v := by
  obtain ⟨inner, flow⟩ := s
  cases inner with
  | nil => exact (lookup?_of_not_hides rfl).trans (Fields.get?_insert_self name v flow)
  | cons f rest =>
      rw [lookup?, frames, declareLocal, List.cons_append, List.findSome?_cons, Frame.bind,
        Fields.get?_insert_self]

theorem Writes.lookup?_eq {s' : Scope} {other : String} {v : Json} (h : s.Writes name v s')
    (hne : other ≠ name) : s'.lookup? other = s.lookup? other := by
  have hmap := h.map_frames (g := fun f => Fields.get? other f.bindings)
    fun f => Fields.get?_insert_of_ne v f.bindings hne
  simpa [lookup?, List.findSome?_map] using congrArg (List.findSome? id) hmap

/-- The frame that is written is the first one in which the name is found again. -/
theorem lookup?_assign_self (name : String) (v : Json) (s : Scope) :
    (s.assign name v).lookup? name = some v := by
  obtain ⟨k, f, hf, hset, -, hbefore⟩ := s.frames_assign name v
  have hk := (List.getElem?_eq_some_iff.mp hf).1
  rw [lookup?, hset, List.set_eq_take_append_cons_drop, if_pos hk]
  refine List.findSome?_eq_some_iff.mpr
    ⟨_, _, _, rfl, Fields.get?_insert_self name v f.bindings, fun g hg => ?_⟩
  obtain ⟨i, hi⟩ := List.mem_iff_getElem?.mp hg
  rw [List.getElem?_take] at hi
  split at hi
  · rename_i hik
    exact Option.not_isSome_iff_eq_none.mp (Bool.eq_false_iff.mp (hbefore i hik g hi))
  · cases hi

theorem lookup?_recordOutput_of_ne (h : name ≠ stepName) (id : String) (output : Json) (s : Scope) :
    (s.recordOutput id output).lookup? name = s.lookup? name :=
  (s.writes_flow stepName _).lookup?_eq h

end Scope
end FlowEngine
