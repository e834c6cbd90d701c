import FlowEngine.Proofs.Json.Tidy
import FlowEngine.Query.Eval

/-!
# Values of queries

The literals of a query are read from its text as tidy values, and every function of queries maps
tidy values to a tidy one. So a query maps tidy values to tidy values.
-/
namespace FlowEngine

/-! ## Computations that may fail -/

/-- A computation that succeeds does so with a result that has a property. -/
def Ensures {ε α : Type} (P : α → Prop) (x : Except ε α) : Prop := ∀ a, x = .ok a → P a

namespace Ensures

variable {ε δ α β : Type} {P : α → Prop} {Q : β → Prop} {x : Except ε α}

theorem ok {a : α} (h : P a) : Ensures P (.ok a : Except ε α) := by
  rintro _ ⟨⟩
  exact h

theorem error (e : ε) : Ensures P (.error e) := by rintro _ ⟨⟩

theorem any (x : Except ε α) : Ensures (fun _ => True) x := fun _ _ => trivial

theorem bind {f : α → Except ε β} (hx : Ensures P x) (hf : ∀ a, P a → Ensures Q (f a)) :
    Ensures Q (x >>= f) := by
  cases x with
  | error e => exact error e
  | ok a => exact hf a (hx a rfl)

theorem map {f : α → β} (hx : Ensures P x) (hf : ∀ a, P a → Q (f a)) : Ensures Q (x.map f) := by
  cases x with
  | error e => exact error e
  | ok a => exact ok (hf a (hx a rfl))

theorem mapError (hx : Ensures P x) (f : ε → δ) : Ensures P (x.mapError f) := by
  cases x with
  | error e => exact error _
  | ok a => exact ok (hx a rfl)

theorem mapM {items : List β} {f : β → Except ε α} (h : ∀ b ∈ items, Ensures P (f b)) :
    Ensures (∀ a ∈ ·, P a) (items.mapM f) := by
  induction items with
  | nil => exact ok (List.forall_mem_nil _)
  | cons b rest ih =>
      obtain ⟨hb, hrest⟩ := List.forall_mem_cons.mp h
      rw [List.mapM_cons]
      exact bind hb fun a ha => bind (ih hrest) fun as has => ok (List.forall_mem_cons.mpr ⟨ha, has⟩)

end Ensures
end FlowEngine

namespace FlowEngine.Query

/-! ## Reading queries -/

inductive Node.Tidy : Node → Prop where
  | current (o : Nat) : Tidy (.current o)
  | field (o : Nat) (name : String) : Tidy (.field o name)
  | literal (o : Nat) {v : Json} (hv : v.Tidy) : Tidy (.literal o v)
  | index (o : Nat) (i : Int) : Tidy (.index o i)
  | slice (o : Nat) (start stop : Option Int) (step : Int) : Tidy (.slice o start stop step)
  | chain (o : Nat) {a b : Node} (ha : Tidy a) (hb : Tidy b) : Tidy (.chain o a b)
  | project (o : Nat) {a b : Node} (ha : Tidy a) (hb : Tidy b) : Tidy (.project o a b)
  | values (o : Nat) {a : Node} (ha : Tidy a) : Tidy (.values o a)
  | flatten (o : Nat) {a : Node} (ha : Tidy a) : Tidy (.flatten o a)
  | condition (o : Nat) {a b : Node} (ha : Tidy a) (hb : Tidy b) : Tidy (.condition o a b)
  | compare (o : Nat) (op : Comparator) {a b : Node} (ha : Tidy a) (hb : Tidy b) :
      Tidy (.compare o op a b)
  | and (o : Nat) {a b : Node} (ha : Tidy a) (hb : Tidy b) : Tidy (.and o a b)
  | or (o : Nat) {a b : Node} (ha : Tidy a) (hb : Tidy b) : Tidy (.or o a b)
  | not (o : Nat) {a : Node} (ha : Tidy a) : Tidy (.not o a)
  | list (o : Nat) {items : List Node} (each : ∀ n ∈ items, Tidy n) : Tidy (.list o items)
  | object (o : Nat) {fields : List (String × Node)} (each : ∀ f ∈ fields, Tidy f.2) :
      Tidy (.object o fields)
  | call (o : Nat) (name : String) {args : List Node} (each : ∀ n ∈ args, Tidy n) :
      Tidy (.call o name args)
  | reference (o : Nat) {a : Node} (ha : Tidy a) : Tidy (.reference o a)

def Token.Tidy : Token → Prop
  | literal v => v.Tidy
  | _ => True

def TidyTokens (tokens : List Placed) : Prop := ∀ t ∈ tokens, t.token.Tidy

theorem TidyTokens.tail {t : Placed} {rest : List Placed} (h : TidyTokens (t :: rest)) :
    TidyTokens rest := (List.forall_mem_cons.mp h).2

namespace Lexer

theorem tidy_of_next? {cs left : List Char} {token : Token} (h : next? cs = some (token, left)) :
    token.Tidy := by
  unfold next? at h
  split at h <;> try (cases h; trivial)
  · cases h
  · obtain ⟨⟨body, rest⟩, -, h⟩ := Option.bind_eq_some_iff.mp h
    obtain ⟨text, -, h⟩ := Option.bind_eq_some_iff.mp h
    cases h
    trivial
  · obtain ⟨⟨body, rest⟩, -, h⟩ := Option.bind_eq_some_iff.mp h
    cases h
    exact Json.tidy_str _
  · obtain ⟨⟨body, rest⟩, -, h⟩ := Option.bind_eq_some_iff.mp h
    obtain ⟨v, hv, h⟩ := Option.bind_eq_some_iff.mp h
    cases h
    exact Json.tidy_of_parse? hv
  · dsimp only at h
    split at h
    · cases h
    · obtain ⟨n, -, h⟩ := Option.bind_eq_some_iff.mp h
      cases h
      trivial
  · split at h <;> try (cases h; trivial)
    split at h
    · cases h
      trivial
    · split at h
      · obtain ⟨n, -, h⟩ := Option.bind_eq_some_iff.mp h
        cases h
        trivial
      · cases h

theorem tidy_of_tokens {total fuel : Nat} {cs : List Char} {tokens : List Placed}
    (h : Lexer.tokens total fuel cs = some tokens) : TidyTokens tokens := by
  induction fuel generalizing cs tokens with
  | zero => cases h
  | succ fuel ih =>
      rw [Lexer.tokens] at h
      split at h
      · cases h
        exact List.forall_mem_nil _
      · obtain ⟨⟨token, left⟩, htoken, h⟩ := Option.bind_eq_some_iff.mp h
        obtain ⟨later, hlater, h⟩ := Option.bind_eq_some_iff.mp h
        cases h
        exact List.forall_mem_cons.mpr ⟨tidy_of_next? htoken, ih hlater⟩

end Lexer

namespace Parser

/-- A reader that succeeds gives a result with a property and leaves tidy tokens. -/
def Gives {α : Type} (P : α → Prop) (x : Option (α × List Placed)) : Prop :=
  ∀ p ∈ x, P p.1 ∧ TidyTokens p.2

namespace Gives

variable {α β : Type} {P : α → Prop} {Q : β → Prop}

theorem none : Gives P Option.none := fun _ hp => absurd hp (Option.not_mem_none _)

theorem some {a : α} {rest : List Placed} (ha : P a) (hrest : TidyTokens rest) :
    Gives P (Option.some (a, rest)) := by
  rintro _ ⟨⟩
  exact ⟨ha, hrest⟩

theorem bind {x : Option (α × List Placed)} {f : α × List Placed → Option (β × List Placed)}
    (hx : Gives P x) (hf : ∀ a rest, P a → TidyTokens rest → Gives Q (f (a, rest))) :
    Gives Q (x >>= f) := by
  cases x with
  | none => exact none
  | some p => exact hf p.1 p.2 (hx p rfl).1 (hx p rfl).2

theorem expect {tokens : List Placed} {wanted : Token → Bool}
    {f : List Placed → Option (β × List Placed)} (h : TidyTokens tokens)
    (hf : ∀ rest, TidyTokens rest → Gives Q (f rest)) : Gives Q (expect? wanted tokens >>= f) := by
  cases tokens with
  | nil => exact none
  | cons t rest =>
      rw [expect?]
      split
      · exact hf rest h.tail
      · exact none

end Gives

theorem gives_readSlice {fuel part : Nat} {tokens : List Placed} {a b c : Option Int}
    (h : TidyTokens tokens) : Gives (fun _ => True) (readSlice fuel tokens part a b c) := by
  induction fuel generalizing tokens part a b c with
  | zero => exact .none
  | succ fuel ih =>
      unfold readSlice
      cases tokens with
      | nil => exact .none
      | cons t rest =>
          have hrest := h.tail
          dsimp only
          split
          · split
            · split
              · exact ih hrest
              · exact ih hrest
              · exact ih hrest
            · split
              · exact ih hrest
              · exact ih hrest
              · exact ih hrest
            · exact .none
          · exact .some trivial hrest
          · split
            · exact .none
            · split
              · exact ih hrest
              · exact ih hrest
              · exact ih hrest
              · exact .none
          · exact .none

structure Reads (fuel : Nat) : Prop where
  query {power : Nat} {tokens : List Placed} : TidyTokens tokens →
    Gives Node.Tidy (readQuery fuel power tokens)
  more {power : Nat} {left : Node} {tokens : List Placed} : left.Tidy → TidyTokens tokens →
    Gives Node.Tidy (readMore fuel power left tokens)
  first {tokens : List Placed} : TidyTokens tokens → Gives Node.Tidy (readFirst fuel tokens)
  operator {left : Node} {tokens : List Placed} : left.Tidy → TidyTokens tokens →
    Gives Node.Tidy (readOperator fuel left tokens)
  projected {power : Nat} {tokens : List Placed} : TidyTokens tokens →
    Gives Node.Tidy (readProjected fuel power tokens)
  afterDot {power : Nat} {tokens : List Placed} : TidyTokens tokens →
    Gives Node.Tidy (readAfterDot fuel power tokens)
  values {offset : Nat} {left : Node} {tokens : List Placed} : left.Tidy → TidyTokens tokens →
    Gives Node.Tidy (readValues fuel offset left tokens)
  each {offset : Nat} {left : Node} {tokens : List Placed} : left.Tidy → TidyTokens tokens →
    Gives Node.Tidy (readEach fuel offset left tokens)
  flatten {offset : Nat} {left : Node} {tokens : List Placed} : left.Tidy → TidyTokens tokens →
    Gives Node.Tidy (readFlatten fuel offset left tokens)
  filter {offset : Nat} {left : Node} {tokens : List Placed} : left.Tidy → TidyTokens tokens →
    Gives Node.Tidy (readFilter fuel offset left tokens)
  index {offset : Nat} {tokens : List Placed} : TidyTokens tokens →
    Gives Node.Tidy (readIndex fuel offset tokens)
  list {close : Token → Bool} {tokens : List Placed} : TidyTokens tokens →
    Gives (∀ n ∈ ·, Node.Tidy n) (readList fuel close tokens)
  fields {tokens : List Placed} : TidyTokens tokens →
    Gives (∀ f ∈ ·, Node.Tidy f.2) (readFields fuel tokens)

theorem reads_zero : Reads 0 := by
  constructor <;> intros <;> simp only [readQuery, readMore, readFirst, readOperator, readProjected,
    readAfterDot, readValues, readEach, readFlatten, readFilter, readIndex, readList, readFields] <;>
    exact .none

theorem reads_succ {fuel : Nat} (ih : Reads fuel) : Reads (fuel + 1) where
  query h := by
    rw [readQuery]
    exact (ih.first h).bind fun first rest hfirst hrest => ih.more hfirst hrest
  more hleft h := by
    rw [readMore]
    split
    · exact (ih.operator hleft h).bind fun wider rest hwider hrest => ih.more hwider hrest
    · exact .some hleft h
  first {tokens} h := by
    unfold readFirst
    cases tokens with
    | nil => exact .none
    | cons t rest =>
        have ht := h t List.mem_cons_self
        have hrest := h.tail
        dsimp only
        split
        · exact .some (.current _) hrest
        · exact .some (.field _ _) hrest
        · split
          · exact .none
          · exact .some (.field _ _) hrest
        · exact ih.values (.current _) hrest
        · rename_i v heq
          rw [heq] at ht
          exact .some (.literal _ ht) hrest
        · split
          · exact ih.index hrest
          · exact ih.index hrest
          · exact ih.each (.current _) hrest.tail.tail
          · exact (ih.list hrest).bind fun items left hitems hleft => .some (.list _ hitems) hleft
        · exact ih.flatten (.current _) hrest
        · exact (ih.fields hrest).bind fun fields left hfields hleft =>
            .some (.object _ hfields) hleft
        · exact (ih.query hrest).bind fun body left hbody hleft => .some (.reference _ hbody) hleft
        · exact (ih.query hrest).bind fun operand left hoperand hleft =>
            .some (.not _ hoperand) hleft
        · exact ih.filter (.current _) hrest
        · exact (ih.query hrest).bind fun inside left hinside hleft =>
            .expect hleft fun rest hrest => .some hinside hrest
        · exact .none
  operator {left tokens} hleft h := by
    unfold readOperator
    cases tokens with
    | nil => exact .none
    | cons t rest =>
        have hrest := h.tail
        dsimp only
        split
        · split
          · exact ih.values hleft hrest.tail
          · exact (ih.afterDot hrest).bind fun right more hright hmore =>
              .some (.chain _ hleft hright) hmore
        · split
          · exact (ih.index hrest).bind fun right more hright hmore =>
              .some (.chain _ hleft hright) hmore
          · exact (ih.index hrest).bind fun right more hright hmore =>
              .some (.chain _ hleft hright) hmore
          · exact ih.each hleft hrest.tail.tail
          · exact .none
        · exact (ih.query hrest).bind fun right more hright hmore => .some (.or _ hleft hright) hmore
        · exact (ih.query hrest).bind fun right more hright hmore => .some (.and _ hleft hright) hmore
        · exact (ih.query hrest).bind fun right more hright hmore =>
            .some (.chain _ hleft hright) hmore
        · split
          · exact (ih.list hrest).bind fun args more hargs hmore => .some (.call _ _ hargs) hmore
          · exact .none
        · exact ih.flatten hleft hrest
        · exact ih.filter hleft hrest
        · cases comparator? t.token with
          | none => exact .none
          | some op =>
              exact (ih.query hrest).bind fun right more hright hmore =>
                .some (.compare _ op hleft hright) hmore
  projected {power tokens} h := by
    unfold readProjected
    split
    · exact ih.afterDot h.tail
    · exact ih.query h
    · exact ih.query h
    · split
      · exact .some (.current _) h
      · exact .none
    · exact .some (.current _) h
  afterDot {power tokens} h := by
    unfold readAfterDot
    split
    · exact (ih.list h.tail).bind fun items left hitems hleft =>
        .some (.list _ hitems) hleft
    · exact ih.query h
    · exact ih.query h
    · exact ih.query h
    · exact ih.query h
    · exact ih.query h
    · exact .none
  values hleft h := by
    rw [readValues]
    exact (ih.projected h).bind fun each rest heach hrest =>
      .some (.project _ (.values _ hleft) heach) hrest
  each hleft h := by
    rw [readEach]
    exact (ih.projected h).bind fun each rest heach hrest => .some (.project _ hleft heach) hrest
  flatten hleft h := by
    rw [readFlatten]
    exact (ih.projected h).bind fun each rest heach hrest =>
      .some (.project _ (.flatten _ hleft) heach) hrest
  filter hleft h := by
    rw [readFilter]
    exact (ih.query h).bind fun test rest htest hrest => .expect hrest fun rest hrest =>
      (ih.projected hrest).bind fun each more heach hmore =>
        .some (.project _ hleft (.condition _ htest heach)) hmore
  index {offset tokens} h := by
    unfold readIndex
    refine (gives_readSlice h).bind fun bounds rest _ hrest => ?_
    obtain ⟨part, a, b, c⟩ := bounds
    dsimp only
    split
    · cases a with
      | none => exact .none
      | some i => exact .some (.index _ i) hrest
    · exact (ih.projected hrest).bind fun each more heach hmore =>
        .some (.project _ (.slice _ a b _) heach) hmore
  list {close tokens} h := by
    unfold readList
    cases tokens with
    | nil => exact .none
    | cons t rest =>
        dsimp only
        split
        · exact .some (List.forall_mem_nil _) h.tail
        · refine (ih.query h).bind fun first more hfirst hmore => ?_
          have hothers {following : List Placed} (hfollowing : TidyTokens following) :
              Gives (∀ n ∈ ·, Node.Tidy n) (readList fuel close following >>= fun p =>
                some (first :: p.1, p.2)) :=
            (ih.list hfollowing).bind fun others left hothers hleft =>
              .some (List.forall_mem_cons.mpr ⟨hfirst, hothers⟩) hleft
          dsimp only
          split
          · split
            · exact .none
            · exact hothers hmore.tail
          · exact hothers hmore
  fields {tokens} h := by
    unfold readFields
    dsimp only
    split
    iterate 2
      · refine (ih.query h.tail.tail).bind fun value more hvalue hmore => ?_
        dsimp only
        split
        · exact .some (List.forall_mem_singleton.mpr hvalue) hmore.tail
        · exact (ih.fields hmore.tail).bind fun others left hothers hleft =>
            .some (List.forall_mem_cons.mpr ⟨hvalue, hothers⟩) hleft
        · exact .none
    · exact .none

theorem reads : ∀ fuel : Nat, Reads fuel
  | 0 => reads_zero
  | fuel + 1 => reads_succ (reads fuel)

end Parser

theorem Node.tidy_of_parse? {text : String} {n : Node} (h : Node.parse? text = some n) : n.Tidy := by
  obtain ⟨tokens, htokens, h⟩ := Option.bind_eq_some_iff.mp h
  split at h
  · rename_i hread
    cases h
    exact ((Parser.reads _).query (Lexer.tidy_of_tokens htokens) _ hread).1
  · cases h

/-! ## Evaluating queries -/

variable {v w : Json} {items : List Json}

def Arg.Tidy : Arg → Prop
  | value v => v.Tidy
  | reference apply => ∀ v, v.Tidy → Ensures Json.Tidy (apply v)

theorem ensures_number? (x : Float) : Ensures Json.Tidy (number? x) := by
  unfold number?
  split
  · exact .ok (Json.tidy_num _)
  · exact .error _

theorem tidy_itemAt (h : ∀ v ∈ items, v.Tidy) (position : Int) : (itemAt items position).Tidy := by
  have hget (i : Nat) : (items[i]?.getD .null).Tidy := by
    cases hi : items[i]? with
    | none => exact Json.tidy_null
    | some v => exact h v (List.mem_of_getElem? hi)
  unfold itemAt
  split
  · exact hget _
  · dsimp only
    split
    · exact hget _
    · exact Json.tidy_null

theorem tidy_sliceOf (h : ∀ v ∈ items, v.Tidy) (start stop : Option Int) (step : Int) :
    ∀ v ∈ sliceOf items start stop step, v.Tidy := by
  intro v hv
  obtain ⟨i, -, rfl⟩ := List.mem_map.mp hv
  exact tidy_itemAt h i

theorem tidy_flattenItems (h : ∀ v ∈ items, v.Tidy) : ∀ v ∈ flattenItems items, v.Tidy := by
  intro v hv
  obtain ⟨w, hw, hmem⟩ := List.mem_flatMap.mp hv
  have hw := h w hw
  split at hmem
  · exact Json.tidy_arr.mp hw v hmem
  · exact List.mem_singleton.mp hmem ▸ hw

theorem tidy_best {pairs : List (Json × Json)} (h : ∀ p ∈ pairs, p.1.Tidy)
    (beats : Json → Json → Bool) : (best beats pairs).Tidy := by
  cases pairs with
  | nil => exact Json.tidy_null
  | cons first rest =>
      rw [best]
      refine h _ (List.foldlRecOn rest _ List.mem_cons_self fun top htop next hnext => ?_)
      split
      · exact List.mem_cons_of_mem _ hnext
      · exact htop

theorem tidy_zip (h : ∀ v ∈ items, v.Tidy) (keys : List Json) : ∀ p ∈ items.zip keys, p.1.Tidy :=
  fun _ hp => h _ (List.of_mem_zip hp).1

theorem ensures_keysOf (h : ∀ v ∈ items, v.Tidy) (apply : Json → Except Fault Json) :
    Ensures (∀ p ∈ ·, Json.Tidy (Prod.fst p)) (keysOf apply items) := by
  unfold keysOf
  refine (Ensures.any _).bind fun keys _ => ?_
  split
  · exact .ok (tidy_zip h keys)
  · exact .error _

namespace Builtin

def Keeps (f : Builtin) : Prop := ∀ args, (∀ a ∈ args, a.Tidy) → Ensures Json.Tidy (f args)

theorem keeps_onNumber (f : Float → Float) : Keeps (onNumber f) := by
  intro args _
  unfold onNumber
  split
  · exact ensures_number? _
  · exact .error _

theorem keeps_onNumbers (f : List Float → Float) : Keeps (onNumbers f) := by
  intro args _
  unfold onNumbers
  split
  · split
    · exact ensures_number? _
    · exact .error _
  · exact .error _

theorem keeps_contains : Keeps contains := by
  intro args _
  unfold contains
  split
  · exact .ok (Json.tidy_bool _)
  · split <;> exact .ok (Json.tidy_bool _)
  · exact .error _

theorem keeps_onTexts (test : List Char → List Char → Bool) : Keeps (onTexts test) := by
  intro args _
  unfold onTexts
  split
  · exact .ok (Json.tidy_bool _)
  · exact .error _

theorem keeps_join : Keeps join := by
  intro args _
  unfold join
  split
  · split
    · exact .ok (Json.tidy_str _)
    · exact .error _
  · exact .error _

theorem keeps_keys : Keeps keys := by
  intro args _
  unfold keys
  split
  · refine .ok (Json.tidy_arr.mpr fun v hv => ?_)
    obtain ⟨f, -, rfl⟩ := List.mem_map.mp hv
    exact Json.tidy_str _
  · exact .error _

theorem keeps_values : Keeps values := by
  intro args h
  unfold values
  split
  · have hfields := Json.tidy_obj.mp (h _ List.mem_cons_self)
    refine .ok (Json.tidy_arr.mpr fun v hv => ?_)
    obtain ⟨f, hf, rfl⟩ := List.mem_map.mp hv
    exact hfields.each hf
  · exact .error _

theorem keeps_length : Keeps length := by
  intro args _
  unfold length
  split <;> first | exact .ok (Json.tidy_ofNat _) | exact .error _

theorem keeps_map : Keeps map := by
  intro args h
  unfold map
  split
  · obtain ⟨happly, hrest⟩ := List.forall_mem_cons.mp h
    have hitems := Json.tidy_arr.mp (hrest _ List.mem_cons_self)
    exact (Ensures.mapM fun v hv => happly v (hitems v hv)).bind fun results hresults =>
      .ok (Json.tidy_arr.mpr hresults)
  · exact .error _

theorem keeps_extreme (beats : Json → Json → Bool) : Keeps (extreme beats) := by
  intro args h
  unfold extreme
  split
  · split
    · exact .ok (tidy_best (tidy_zip (Json.tidy_arr.mp (h _ List.mem_cons_self)) _) beats)
    · exact .error _
  · exact .error _

theorem keeps_extremeBy (beats : Json → Json → Bool) : Keeps (extremeBy beats) := by
  intro args h
  unfold extremeBy
  split
  · refine (ensures_keysOf (Json.tidy_arr.mp (h _ List.mem_cons_self)) _).bind fun pairs hpairs => ?_
    exact .ok (tidy_best hpairs beats)
  · exact .error _

theorem keeps_sort : Keeps sort := by
  intro args h
  unfold sort
  split
  · split
    · have hitems := Json.tidy_arr.mp (h _ List.mem_cons_self)
      exact .ok (Json.tidy_arr.mpr fun v hv => hitems v (List.mem_mergeSort.mp hv))
    · exact .error _
  · exact .error _

theorem keeps_sortBy : Keeps sortBy := by
  intro args h
  unfold sortBy
  split
  · refine (ensures_keysOf (Json.tidy_arr.mp (h _ List.mem_cons_self)) _).bind fun pairs hpairs => ?_
    refine .ok (Json.tidy_arr.mpr fun v hv => ?_)
    obtain ⟨p, hp, rfl⟩ := List.mem_map.mp hv
    exact hpairs p (List.mem_mergeSort.mp hp)
  · exact .error _

theorem keeps_reverse : Keeps reverse := by
  intro args h
  unfold reverse
  split
  · have hitems := Json.tidy_arr.mp (h _ List.mem_cons_self)
    exact .ok (Json.tidy_arr.mpr fun v hv => hitems v (List.mem_reverse.mp hv))
  · exact .ok (Json.tidy_str _)
  · exact .error _

theorem keeps_toArray : Keeps toArray := by
  intro args h
  unfold toArray
  split
  · have hv := h _ List.mem_cons_self
    split
    · exact .ok hv
    · exact .ok (Json.tidy_arr.mpr (List.forall_mem_singleton.mpr hv))
  · exact .error _

theorem keeps_toNumber : Keeps toNumber := by
  have hread (s : String) : (readNumber s).Tidy := by
    unfold readNumber
    cases hv : Json.parse? s with
    | none => exact Json.tidy_null
    | some v => exact Json.tidy_of_parse? hv
  intro args _
  unfold toNumber
  split
  · split
    · exact .ok (Json.tidy_num _)
    · exact .ok (hread _)
    · exact .ok Json.tidy_null
  · exact .ok Json.tidy_null
  · exact .error _

theorem keeps_toText : Keeps toText := by
  intro args _
  unfold toText
  split
  · split <;> exact .ok (Json.tidy_str _)
  · exact .error _

theorem keeps_type : Keeps type := by
  intro args _
  unfold type
  split
  · exact .ok (Json.tidy_str _)
  · exact .ok (Json.tidy_str _)
  · exact .error _

theorem ensures_fields? {a : Arg} (h : a.Tidy) : Ensures Fields.Tidy (fields? a) := by
  unfold fields?
  split
  · exact .ok (Json.tidy_obj.mp h)
  · exact .error _

theorem keeps_merge : Keeps merge := by
  intro args h
  unfold merge
  split
  · exact .error _
  · refine (Ensures.mapM fun a ha => ensures_fields? (h a ha)).bind fun objects hobjects => ?_
    refine .ok (Json.tidy_obj.mpr ?_)
    exact List.foldlRecOn objects _ .nil fun merged hmerged added hadded =>
      hmerged.insertAll fun f hf => (hobjects added hadded).each hf

theorem keeps_notNull : Keeps notNull := by
  intro args h
  unfold notNull
  split
  · exact .error _
  · refine .ok ?_
    cases hhead : (args.filterMap known?).head? with
    | none => exact Json.tidy_null
    | some v =>
        obtain ⟨a, ha, hknown⟩ := List.mem_filterMap.mp (List.mem_of_head? hhead)
        have ha := h a ha
        unfold known? at hknown
        split at hknown <;> cases hknown
        exact ha

theorem keeps_all : ∀ f ∈ all, Keeps f.2 := by
  simp only [all, List.forall_mem_cons, keeps_onNumber, keeps_onNumbers, keeps_contains, keeps_onTexts,
    keeps_join, keeps_keys, keeps_values, keeps_length, keeps_map, keeps_extreme, keeps_extremeBy,
    keeps_sort, keeps_sortBy, keeps_reverse, keeps_toArray, keeps_toNumber, keeps_toText, keeps_type,
    keeps_merge, keeps_notNull, List.not_mem_nil, false_implies, implies_true, and_self]

end Builtin

theorem ensures_callFunction (name : String) {args : List Arg} (h : ∀ a ∈ args, a.Tidy) :
    Ensures Json.Tidy (callFunction name args) := by
  unfold callFunction
  split
  · rename_i builtin hbuiltin
    exact Builtin.keeps_all _ (Fields.mem_of_get? hbuiltin) args h
  · exact .error _

@[simp] theorem tidy_apply (op : Comparator) (a b : Json) : (op.apply a b).Tidy := by
  unfold Comparator.apply
  split <;> simp

namespace Node

mutual
theorem ensures_eval : ∀ n : Node, n.Tidy → ∀ v : Json, v.Tidy → Ensures Json.Tidy (n.eval v)
  | .current _, _, v, hv => by
      rw [eval]
      exact .ok hv
  | .field _ name, _, v, hv => by
      rw [eval]
      cases hw : v.field? name with
      | none => exact .ok Json.tidy_null
      | some w => exact .ok (hv.field? hw)
  | .literal _ value, .literal _ hvalue, v, _ => by
      rw [eval]
      exact .ok hvalue
  | .index _ i, _, v, hv => by
      unfold eval
      split
      · exact .ok (tidy_itemAt (Json.tidy_arr.mp hv) i)
      · exact .ok Json.tidy_null
  | .slice _ start stop step, _, v, hv => by
      unfold eval
      split
      · exact .error _
      · split
        · exact .ok (Json.tidy_arr.mpr (tidy_sliceOf (Json.tidy_arr.mp hv) start stop step))
        · exact .ok Json.tidy_null
  | .chain _ a b, .chain _ ha hb, v, hv => by
      rw [eval]
      exact (ensures_eval a ha v hv).bind fun w hw => ensures_eval b hb w hw
  | .project _ items each, .project _ hitems heach, v, hv => by
      rw [eval]
      refine (ensures_eval items hitems v hv).bind fun w hw => ?_
      split
      · refine (Ensures.mapM fun u hu => ensures_eval each heach u (Json.tidy_arr.mp hw u hu)).bind
          fun results hresults => .ok (Json.tidy_arr.mpr fun r hr => ?_)
        exact hresults r (List.mem_of_mem_filter hr)
      · exact .ok Json.tidy_null
  | .values _ a, .values _ ha, v, hv => by
      rw [eval]
      refine (ensures_eval a ha v hv).bind fun w hw => ?_
      split
      · refine .ok (Json.tidy_arr.mpr fun u hu => ?_)
        obtain ⟨f, hf, rfl⟩ := List.mem_map.mp hu
        exact (Json.tidy_obj.mp hw).each hf
      · exact .ok Json.tidy_null
  | .flatten _ a, .flatten _ ha, v, hv => by
      rw [eval]
      refine (ensures_eval a ha v hv).bind fun w hw => ?_
      split
      · exact .ok (Json.tidy_arr.mpr (tidy_flattenItems (Json.tidy_arr.mp hw)))
      · exact .ok Json.tidy_null
  | .condition _ test result, .condition _ htest hresult, v, hv => by
      rw [eval]
      refine (ensures_eval test htest v hv).bind fun w _ => ?_
      split
      · exact ensures_eval result hresult v hv
      · exact .ok Json.tidy_null
  | .compare _ op a b, .compare _ _ ha hb, v, hv => by
      rw [eval]
      exact (ensures_eval a ha v hv).bind fun x _ => (ensures_eval b hb v hv).bind fun y _ =>
        .ok (tidy_apply op x y)
  | .and _ a b, .and _ ha hb, v, hv => by
      rw [eval]
      refine (ensures_eval a ha v hv).bind fun left hleft => ?_
      split
      · exact ensures_eval b hb v hv
      · exact .ok hleft
  | .or _ a b, .or _ ha hb, v, hv => by
      rw [eval]
      refine (ensures_eval a ha v hv).bind fun left hleft => ?_
      split
      · exact .ok hleft
      · exact ensures_eval b hb v hv
  | .not _ a, .not _ ha, v, hv => by
      rw [eval]
      exact (ensures_eval a ha v hv).bind fun w _ => .ok (Json.tidy_bool _)
  | .list _ items, .list _ hitems, v, hv => by
      unfold eval
      split
      · exact .ok Json.tidy_null
      · exact (ensures_evalItems items hitems v hv).bind fun ws hws => .ok (Json.tidy_arr.mpr hws)
  | .object _ fields, .object _ hfields, v, hv => by
      unfold eval
      split
      · exact .ok Json.tidy_null
      · exact (ensures_evalFields fields hfields v hv).bind fun fs hfs => .ok (Json.tidy_object hfs)
  | .call _ name args, .call _ _ hargs, v, hv => by
      rw [eval]
      exact (ensures_evalArgs args hargs v hv).bind fun as has => ensures_callFunction name has
  | .reference _ body, _, v, _ => by
      rw [eval]
      exact .ok (Json.tidy_str _)

theorem ensures_evalItems : ∀ items : List Node, (∀ n ∈ items, n.Tidy) → ∀ v : Json, v.Tidy →
    Ensures (∀ w ∈ ·, Json.Tidy w) (evalItems items v)
  | [], _, v, _ => by
      rw [evalItems]
      exact .ok (List.forall_mem_nil _)
  | n :: rest, h, v, hv => by
      obtain ⟨hn, hrest⟩ := List.forall_mem_cons.mp h
      rw [evalItems]
      exact (ensures_eval n hn v hv).bind fun w hw => (ensures_evalItems rest hrest v hv).bind
        fun ws hws => .ok (List.forall_mem_cons.mpr ⟨hw, hws⟩)

theorem ensures_evalFields : ∀ fields : List (String × Node), (∀ f ∈ fields, f.2.Tidy) →
    ∀ v : Json, v.Tidy → Ensures (∀ f ∈ ·, Json.Tidy (Prod.snd f)) (evalFields fields v)
  | [], _, v, _ => by
      rw [evalFields]
      exact .ok (List.forall_mem_nil _)
  | (k, n) :: rest, h, v, hv => by
      obtain ⟨hn, hrest⟩ := List.forall_mem_cons.mp h
      rw [evalFields]
      exact (ensures_eval n hn v hv).bind fun w hw => (ensures_evalFields rest hrest v hv).bind
        fun ws hws => .ok (List.forall_mem_cons.mpr ⟨hw, hws⟩)

theorem ensures_evalArgs : ∀ args : List Node, (∀ n ∈ args, n.Tidy) → ∀ v : Json, v.Tidy →
    Ensures (∀ a ∈ ·, Arg.Tidy a) (evalArgs args v)
  | [], _, v, _ => by
      rw [evalArgs]
      exact .ok (List.forall_mem_nil _)
  | n :: rest, h, v, hv => by
      obtain ⟨hn, hrest⟩ := List.forall_mem_cons.mp h
      have hargs (a : Arg) (ha : a.Tidy) : Ensures (∀ a ∈ ·, Arg.Tidy a)
          (evalArgs rest v >>= fun as => .ok (a :: as)) :=
        (ensures_evalArgs rest hrest v hv).bind fun as has => .ok (List.forall_mem_cons.mpr ⟨ha, has⟩)
      unfold evalArgs
      dsimp only
      split
      · rename_i body
        cases hn with
        | reference _ hbody => exact hargs _ fun w hw => ensures_eval body hbody w hw
      · have hvalue : Ensures Arg.Tidy ((n.eval v).map Arg.value) :=
          (ensures_eval n hn v hv).map fun w hw => hw
        exact hvalue.bind hargs
end

end Node

theorem keys_integralFields (fields : List (String × Json)) :
    (integralFields fields).map Prod.fst = fields.map Prod.fst := by
  induction fields with
  | nil => rfl
  | cons f rest ih => rw [integralFields, List.map_cons, ih, List.map_cons]

mutual
theorem tidy_integral : ∀ v : Json, v.Tidy → (integral v).Tidy
  | .null, h => h
  | .bool _, h => h
  | .num _, _ => Json.tidy_num _
  | .str _, h => h
  | .arr items, h => Json.tidy_arr.mpr (tidy_integralItems items (Json.tidy_arr.mp h))
  | .obj fields, h => by
      obtain ⟨ascending, each⟩ := Json.tidy_obj.mp h
      rw [← keys_integralFields] at ascending
      exact Json.tidy_obj.mpr ⟨ascending, fun {f} => tidy_integralFields fields (fun _ => each) f⟩

theorem tidy_integralItems : ∀ items : List Json, (∀ v ∈ items, v.Tidy) →
    ∀ v ∈ integralItems items, v.Tidy
  | [], _ => List.forall_mem_nil _
  | v :: rest, h => by
      obtain ⟨hv, hrest⟩ := List.forall_mem_cons.mp h
      exact List.forall_mem_cons.mpr ⟨tidy_integral v hv, tidy_integralItems rest hrest⟩

theorem tidy_integralFields : ∀ fields : List (String × Json), (∀ f ∈ fields, f.2.Tidy) →
    ∀ f ∈ integralFields fields, f.2.Tidy
  | [], _ => List.forall_mem_nil _
  | (k, v) :: rest, h => by
      obtain ⟨hv, hrest⟩ := List.forall_mem_cons.mp h
      exact List.forall_mem_cons.mpr ⟨tidy_integral v hv, tidy_integralFields rest hrest⟩
end

/-- A query maps tidy values to tidy values. -/
theorem ensures_run {v : Json} (text : String) (hv : v.Tidy) : Ensures Json.Tidy (run text v) := by
  unfold run
  cases hn : Node.parse? text with
  | none => exact .error _
  | some n =>
      exact (n.ensures_eval (Node.tidy_of_parse? hn) v hv).map fun w hw => tidy_integral w hw

end FlowEngine.Query
