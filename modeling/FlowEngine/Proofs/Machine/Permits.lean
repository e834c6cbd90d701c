import FlowEngine.Proofs.Machine.Waking

/-!
# The permits of a run

The books of a gate say who waits in its line and who holds a permit: a task does while its
request is in progress. What is free, what was handed to a waiter and what is held are all the
permits that there are, and every poll keeps the books.
-/
namespace FlowEngine

inductive Standing where
  | queued
  | calling
deriving DecidableEq

namespace Gate

variable {ι : Type}

structure Books (g : Gate ι) (stands : ι → Option Standing) : Prop where
  distinct : (g.waiting ++ g.granted).Nodup
  queued {i : ι} : i ∈ g.waiting ++ g.granted ↔ stands i = some .queued
  full : g.waiting ≠ [] → g.free = 0
  held : ∃ calls : List ι, calls.Nodup ∧ (∀ i, i ∈ calls ↔ stands i = some .calling) ∧
    g.free + g.granted.length + calls.length = g.size

variable {g g' : Gate ι} {stands : ι → Option Standing} {i : ι}

theorem books_new (size : Nat) : (new size : Gate ι).Books fun _ => none where
  distinct := List.nodup_nil
  queued := by simp [new]
  full h := absurd rfl h
  held := ⟨[], List.nodup_nil, by simp, rfl⟩

theorem size_release (g : Gate ι) : g.release.1.size = g.size := by
  unfold release
  split <;> rfl

theorem size_tryAcquire? (h : g.tryAcquire? = some g') : g'.size = g.size := by
  obtain ⟨-, rfl⟩ := tryAcquire?_eq_some.mp h
  rfl

/-- Whoever is handed a permit had one handed before, or is the one that a release returns. -/
theorem mem_granted_release (h : i ∈ g.release.1.granted) :
    i ∈ g.granted ∨ g.release.2 = some i := by
  unfold release at h ⊢
  split at h
  · exact Or.inl h
  · rcases List.mem_append.mp h with h | h
    · exact Or.inl h
    · exact Or.inr (congrArg some (List.mem_singleton.mp h).symm)

/-- Everybody who holds a permit is in the list of the holders, whatever list that is. -/
theorem Books.held_eq (h : g.Books stands) {calls : List ι} (hcalls : calls.Nodup)
    (hmem : ∀ i, i ∈ calls ↔ stands i = some .calling) :
    g.free + g.granted.length + calls.length = g.size := by
  obtain ⟨calls', hnodup, hmem', hsum⟩ := h.held
  have hperm : calls.Perm calls' :=
    (List.perm_ext_iff_of_nodup hcalls hnodup).mpr fun i => (hmem i).trans (hmem' i).symm
  rw [hperm.length_eq, hsum]

variable [DecidableEq ι]

theorem update_eq_some {x y : Standing} {j : ι} :
    Function.update stands i (some x) j = some y ↔ j = i ∧ x = y ∨ j ≠ i ∧ stands j = some y := by
  by_cases h : j = i
  · subst h
    simp
  · simp [h]

theorem update_none_eq_some {y : Standing} {j : ι} :
    Function.update stands i none j = some y ↔ j ≠ i ∧ stands j = some y := by
  by_cases h : j = i
  · subst h
    simp
  · simp [h]

namespace Books

/-- A task that comes to hold a permit is one more holder. -/
theorem held_cons (h : g.Books stands) (hi : stands i ≠ some .calling) :
    ∃ calls : List ι, calls.Nodup ∧
      (∀ j, j ∈ calls ↔ Function.update stands i (some .calling) j = some .calling) ∧
      g.free + g.granted.length + calls.length = g.size + 1 := by
  obtain ⟨calls, hnodup, hmem, hsum⟩ := h.held
  have hnot : i ∉ calls := fun hm => hi ((hmem i).mp hm)
  refine ⟨i :: calls, List.nodup_cons.mpr ⟨hnot, hnodup⟩, fun j => ?_, ?_⟩
  · rw [List.mem_cons, hmem, update_eq_some]
    by_cases hj : j = i
    · simp [hj]
    · simp [hj]
  · rw [List.length_cons]
    omega

theorem acquire (h : g.Books stands) (hi : stands i = none) (hg : g.tryAcquire? = some g') :
    g'.Books (Function.update stands i (some .calling)) := by
  obtain ⟨hfree, rfl⟩ := tryAcquire?_eq_some.mp hg
  refine ⟨h.distinct, ?_, fun hw => ?_, ?_⟩
  · intro j
    rw [h.queued, update_eq_some]
    by_cases hj : j = i
    · simp [hj, hi]
    · simp [hj]
  · exact absurd (h.full hw) hfree
  · obtain ⟨calls, hnodup, hmem, hsum⟩ := h.held_cons (i := i) (by simp [hi])
    refine ⟨calls, hnodup, hmem, ?_⟩
    change g.free - 1 + g.granted.length + calls.length = g.size
    omega

theorem enqueue (h : g.Books stands) (hi : stands i = none) (hg : g.tryAcquire? = none) :
    (g.enqueue i).Books (Function.update stands i (some .queued)) := by
  have hfree : g.free = 0 := tryAcquire?_eq_none.mp hg
  have hnot : i ∉ g.waiting ++ g.granted := by
    rw [h.queued, hi]
    nofun
  have hperm : ((g.enqueue i).waiting ++ (g.enqueue i).granted).Perm
      (i :: (g.waiting ++ g.granted)) := by
    simp only [Gate.enqueue, List.append_assoc, List.singleton_append]
    exact List.perm_middle
  refine ⟨hperm.nodup_iff.mpr (List.nodup_cons.mpr ⟨hnot, h.distinct⟩), fun {j} => ?_, fun _ => hfree, ?_⟩
  · rw [hperm.mem_iff, List.mem_cons, h.queued, update_eq_some]
    by_cases hj : j = i
    · simp [hj]
    · simp [hj]
  · obtain ⟨calls, hnodup, hmem, hsum⟩ := h.held
    refine ⟨calls, hnodup, fun j => ?_, hsum⟩
    rw [hmem, update_eq_some]
    by_cases hj : j = i
    · simp [hj, hi]
    · simp [hj]

theorem claim (h : g.Books stands) (hg : g.claim? i = some g') :
    g'.Books (Function.update stands i (some .calling)) := by
  obtain ⟨hi, rfl⟩ := claim?_eq_some.mp hg
  have hqueued : stands i = some .queued := h.queued.mp (List.mem_append_right _ hi)
  obtain ⟨hw, hgr, hdisjoint⟩ := List.nodup_append.mp h.distinct
  have hnot : i ∉ g.waiting := fun hm => hdisjoint i hm i hi rfl
  refine ⟨?_, fun {j} => ?_, h.full, ?_⟩
  · refine List.nodup_append.mpr ⟨hw, hgr.erase i, fun a ha b hb => ?_⟩
    exact hdisjoint a ha b (List.mem_of_mem_erase hb)
  · rw [List.mem_append, hgr.mem_erase_iff, update_eq_some]
    have hj : j ∈ g.waiting ++ g.granted ↔ _ := h.queued
    rw [List.mem_append] at hj
    by_cases hji : j = i
    · simp [hji, hnot]
    · simp [hji, ← hj]
  · obtain ⟨calls, hnodup, hmem, hsum⟩ := h.held_cons (i := i) (by simp [hqueued])
    refine ⟨calls, hnodup, hmem, ?_⟩
    change g.free + (g.granted.erase i).length + calls.length = g.size
    have hpos : 0 < g.granted.length := List.length_pos_of_mem hi
    rw [List.length_erase_of_mem hi]
    omega

theorem release (h : g.Books stands) (hi : stands i = some .calling) :
    g.release.1.Books (Function.update stands i none) := by
  have hqueued (j : ι) :
      j ∈ g.waiting ++ g.granted ↔ Function.update stands i none j = some .queued := by
    rw [h.queued, update_none_eq_some]
    by_cases hj : j = i
    · simp [hj, hi]
    · simp [hj]
  obtain ⟨calls, hnodup, hmem, hsum⟩ := h.held
  have hin : i ∈ calls := (hmem i).mpr hi
  have hpos : 0 < calls.length := List.length_pos_of_mem hin
  have hholders (j : ι) : j ∈ calls.erase i ↔ Function.update stands i none j = some .calling := by
    rw [hnodup.mem_erase_iff, hmem, update_none_eq_some]
  have hlength : (calls.erase i).length = calls.length - 1 := List.length_erase_of_mem hin
  obtain ⟨hdistinct, -, hfull, -⟩ := h
  obtain ⟨size, free, waiting, granted⟩ := g
  simp only at hdistinct hqueued hsum
  cases waiting with
  | nil =>
      refine ⟨hdistinct, hqueued _, fun hne => absurd rfl hne, _, hnodup.erase i, hholders, ?_⟩
      change free + 1 + granted.length + (calls.erase i).length = size
      omega
  | cons next rest =>
      have hperm : (rest ++ (granted ++ [next])).Perm (next :: rest ++ granted) := by
        rw [← List.append_assoc]
        exact List.perm_append_singleton next (rest ++ granted)
      refine ⟨hperm.nodup_iff.mpr hdistinct, fun {j} => hperm.mem_iff.trans (hqueued j),
        fun _ => hfull (by simp), _, hnodup.erase i, hholders, ?_⟩
      change free + (granted ++ [next]).length + (calls.erase i).length = size
      rw [List.length_append, List.length_singleton]
      omega

theorem withdraw (h : g.Books stands) (hi : stands i = some .queued) :
    (g.withdraw i).1.Books (Function.update stands i none) := by
  unfold Gate.withdraw
  cases hg : g.claim? i with
  | some g' =>
      have hclaimed := (h.claim hg).release (i := i) (by simp)
      rwa [Function.update_idem] at hclaimed
  | none =>
      have hnot : i ∉ g.granted := claim?_eq_none.mp hg
      obtain ⟨hw, hgr, hdisjoint⟩ := List.nodup_append.mp h.distinct
      refine ⟨?_, fun {j} => ?_, fun hne => ?_, ?_⟩
      · refine List.nodup_append.mpr ⟨hw.erase i, hgr, fun a ha b hb => ?_⟩
        exact hdisjoint a (List.mem_of_mem_erase ha) b hb
      · rw [List.mem_append, hw.mem_erase_iff, update_none_eq_some]
        have hj : j ∈ g.waiting ++ g.granted ↔ _ := h.queued
        rw [List.mem_append] at hj
        by_cases hji : j = i
        · simp [hji, hnot]
        · simp [hji, ← hj]
      · refine h.full fun hnil => hne ?_
        change g.waiting.erase i = []
        rw [hnil]
        rfl
      · obtain ⟨calls, hnodup, hmem, hsum⟩ := h.held
        refine ⟨calls, hnodup, fun j => ?_, hsum⟩
        rw [hmem, update_none_eq_some]
        by_cases hj : j = i
        · simp [hj, hi]
        · simp [hj]

end Books

theorem mem_granted_claim? (h : g.claim? i = some g') {j : ι} (hj : j ∈ g'.granted) :
    j ∈ g.granted := by
  obtain ⟨-, rfl⟩ := claim?_eq_some.mp h
  exact List.mem_of_mem_erase hj

theorem mem_granted_withdraw {j : ι} (h : j ∈ (g.withdraw i).1.granted) :
    j ∈ g.granted ∨ (g.withdraw i).2 = some j := by
  unfold withdraw at h ⊢
  split at h
  · rename_i g' hg
    exact (mem_granted_release h).imp_left (mem_granted_claim? hg)
  · exact Or.inl h

theorem size_claim? (h : g.claim? i = some g') : g'.size = g.size := by
  obtain ⟨-, rfl⟩ := claim?_eq_some.mp h
  rfl

theorem size_withdraw (g : Gate ι) (i : ι) : (g.withdraw i).1.size = g.size := by
  unfold withdraw
  split
  · rename_i g' hg
    rw [size_release, size_claim? hg]
  · rfl

end Gate

/-! ## Polls and gates -/

def Wait.standing : Wait → Option Standing
  | permit => some .queued
  | call _ _ | operation _ => some .calling
  | _ => none

theorem Wait.standing_of_not_asked {w : Wait} (h : w.asked = false) : w.standing = none := by
  cases w with
  | permit | call | operation => cases h
  | _ => rfl

theorem Wait.standing_of_awaited {w : Wait} {timer : Nat} (h : w.awaited? = some timer) :
    w.standing = some .calling := by
  cases w with
  | call | operation => rfl
  | _ => cases h

def Turn.standing {α : Type} : Turn α → Option Standing
  | answered _ => none
  | waiting w => w.standing

abbrev Standings := Nat → TaskId → Option Standing

namespace Standings

def set (stands : Standings) (run : Nat) (t : TaskId) (x : Option Standing) : Standings :=
  Function.update stands run (Function.update (stands run) t x)

variable {stands : Standings} {run : Nat} {t : TaskId} {x y : Option Standing}

@[simp] theorem set_self : stands.set run t x run t = x := by
  simp [set]

@[simp] theorem set_set : (stands.set run t x).set run t y = stands.set run t y := by
  simp [set]

theorem set_same (h : stands run t = x) : stands.set run t x = stands := by
  subst h
  simp [set]

def after (stands : Standings) (t : TaskId) (e : Effect) (x : Option Standing) : Standings :=
  match e with
  | .request run _ _ => stands.set run t x
  | _ => stands

theorem after_of_ne {e : Effect} (h : ∀ run token request, e ≠ .request run token request) :
    stands.after t e x = stands := by
  cases e with
  | request run token request => exact absurd rfl (h _ _ _)
  | _ => rfl

end Standings

namespace Machine

variable (m : Machine)

def gate? (run : Nat) : Option (Gate TaskId) := m.runs[run]?.map ActiveRun.gate

variable {m} {m' : Machine} {stands : Standings} {run : Nat} {me : TaskId}

theorem gate?_of_runs (h : m'.runs = m.runs) : m'.gate? = m.gate? := by
  funext run
  rw [gate?, h, gate?]

theorem gate?_of_shared (h : m'.shared = m.shared) : m'.gate? = m.gate? :=
  gate?_of_runs (congrArg Machine.runs h :)

theorem gate?_modifyRun (m : Machine) (run : Nat) (f : ActiveRun → ActiveRun)
    (hf : ∀ r, (f r).gate = r.gate) : (m.modifyRun run f).gate? = m.gate? := by
  funext other
  simp only [gate?, modifyRun, Array.getElem?_modify]
  split
  · rw [Option.map_map]
    exact congrFun (congrArg Option.map (funext hf)) _
  · rfl

theorem gate?_setGate {g : Gate TaskId} (h : (m.gate? run).isSome) :
    (m.setGate run g).gate? = Function.update m.gate? run (some g) := by
  funext other
  simp only [gate?, setGate, modifyRun, Array.getElem?_modify, Function.update_apply, eq_comm (a := run)]
  split
  · rename_i hother
    subst hother
    obtain ⟨r, hr⟩ := Option.isSome_iff_exists.mp (Option.isSome_map.symm.trans h)
    rw [hr]
    rfl
  · rfl

structure Admits (m : Machine) (stands : Standings) : Prop where
  books {run : Nat} {g : Gate TaskId} : m.gate? run = some g → g.Books (stands run)
  size {run : Nat} {g : Gate TaskId} : m.gate? run = some g → g.size = m.maxConcurrency
  granted {run : Nat} {g : Gate TaskId} {t : TaskId} :
    m.gate? run = some g → t ∈ g.granted → m.Awake t
  opened {run : Nat} {t : TaskId} {x : Standing} : stands run t = some x → (m.gate? run).isSome

namespace Admits

theorem of_rouses (h : m.Admits stands) (hr : ∃ about, Rouses about m m')
    (hg : m'.gate? = m.gate?) : m'.Admits stands := by
  obtain ⟨about, hr⟩ := hr
  exact ⟨fun hget => h.books (hg ▸ hget),
    fun hget => (h.size (hg ▸ hget)).trans hr.maxConcurrency.symm,
    fun hget ht => hr.awake (h.granted (hg ▸ hget) ht), fun ht => hg ▸ h.opened ht⟩

theorem change (h : m.Admits stands) {g g' : Gate TaskId} {x : Option Standing} {t : TaskId}
    (hg : m.gate? run = some g) (hr : ∃ about, Rouses about m m')
    (hg' : m'.gate? = Function.update m.gate? run (some g'))
    (hbooks : g'.Books (Function.update (stands run) t x)) (hsize : g'.size = g.size)
    (hgranted : ∀ u ∈ g'.granted, u ∈ g.granted ∨ m'.Awake u) : m'.Admits (stands.set run t x) := by
  obtain ⟨about, hr⟩ := hr
  have hcases {other : Nat} {k : Gate TaskId} (hget : m'.gate? other = some k) :
      other = run ∧ k = g' ∨ other ≠ run ∧ m.gate? other = some k := by
    rw [hg'] at hget
    by_cases ho : other = run
    · subst ho
      rw [Function.update_self] at hget
      exact Or.inl ⟨rfl, (Option.some.inj hget).symm⟩
    · rw [Function.update_of_ne ho] at hget
      exact Or.inr ⟨ho, hget⟩
  constructor
  · intro other k hget
    rcases hcases hget with ⟨rfl, rfl⟩ | ⟨ho, hget⟩
    · rw [Standings.set, Function.update_self]
      exact hbooks
    · rw [Standings.set, Function.update_of_ne ho]
      exact h.books hget
  · intro other k hget
    rw [hr.maxConcurrency]
    rcases hcases hget with ⟨rfl, rfl⟩ | ⟨-, hget⟩
    · exact hsize.trans (h.size hg)
    · exact h.size hget
  · intro other k u hget hu
    rcases hcases hget with ⟨rfl, rfl⟩ | ⟨-, hget⟩
    · exact (hgranted u hu).elim (fun hu => hr.awake (h.granted hg hu)) id
    · exact hr.awake (h.granted hget hu)
  · intro other u y hu
    rw [hg']
    by_cases ho : other = run
    · subst ho
      rw [Function.update_self]
      rfl
    · rw [Function.update_of_ne ho]
      rw [Standings.set, Function.update_of_ne ho] at hu
      exact h.opened hu

end Admits

theorem awake_wakeIfSome {t : TaskId} {next : Option TaskId} (h : next = some t) :
    (m.wakeIfSome next).Awake t := by
  subst h
  exact m.awake_wake t

theorem gate?_eq_some {r : ActiveRun} (h : m.runs[run]? = some r) : m.gate? run = some r.gate := by
  rw [gate?, h]
  rfl

theorem Admits.release (h : m.Admits stands) (hme : stands run me = some .calling) :
    (m.releasePermit run).Admits (stands.set run me none) := by
  obtain ⟨g, hg⟩ := Option.isSome_iff_exists.mp (h.opened hme)
  obtain ⟨r, hr, rfl⟩ := Option.map_eq_some_iff.mp hg
  have hrouses := (errand_rouses [] me).releasePermit m run
  unfold releasePermit at hrouses ⊢
  rw [hr] at hrouses ⊢
  dsimp only at hrouses ⊢
  refine h.change hg ⟨[], hrouses⟩ ?_ ((h.books hg).release hme) (Gate.size_release _) fun u hu => ?_
  · rw [gate?_of_shared (shared_wakeIfSome _ _)]
    exact gate?_setGate (Option.isSome_of_eq_some hg)
  · exact (Gate.mem_granted_release hu).imp_right awake_wakeIfSome

theorem Admits.withdraw (h : m.Admits stands) (hme : stands run me = some .queued) :
    (m.withdraw run me).Admits (stands.set run me none) := by
  obtain ⟨g, hg⟩ := Option.isSome_iff_exists.mp (h.opened hme)
  obtain ⟨r, hr, rfl⟩ := Option.map_eq_some_iff.mp hg
  have hrouses := (errand_rouses [] me).withdraw m run
  unfold Machine.withdraw at hrouses ⊢
  rw [hr] at hrouses ⊢
  dsimp only at hrouses ⊢
  refine h.change hg ⟨[], hrouses⟩ ?_ ((h.books hg).withdraw hme) (Gate.size_withdraw _ _) fun u hu => ?_
  · rw [gate?_of_shared (shared_wakeIfSome _ _)]
    exact gate?_setGate (Option.isSome_of_eq_some hg)
  · exact (Gate.mem_granted_withdraw hu).imp_right awake_wakeIfSome

/-! ## Requests -/

theorem Admits.answerRequest (h : m.Admits stands) (hme : stands run me = some .calling)
    (request : Request) (outcome : Outcome) :
    (m.answerRequest me run request outcome).machine.Admits (stands.set run me none) := by
  refine Admits.release (h.of_rouses ⟨[], ?_⟩ ?_) hme
  · cases request <;> exact .of_eq rfl rfl rfl rfl rfl
  · cases request <;> exact gate?_of_runs rfl

theorem Admits.abandonRequest (h : m.Admits stands) (hme : stands run me = some .calling)
    (request : Request) (timer : Nat) :
    (m.abandonRequest me run request timer).machine.Admits (stands.set run me none) := by
  refine Admits.release (h.of_rouses ⟨[], ?_⟩ ?_) hme
  · cases request <;> exact .of_eq rfl rfl rfl rfl rfl
  · cases request <;> exact gate?_of_runs rfl

theorem outsider_gates : Outsider gate? where
  observers _ _ := rfl
  branches _ _ := rfl
  stragglers m run _ := gate?_modifyRun m run _ fun _ => rfl
  wake m t := gate?_of_shared (m.shared_wake t)

theorem gate?_observe (m : Machine) (token : Token) (t : TaskId) :
    (m.observe token t).gate? = m.gate? :=
  outsider_gates.observe m token t

theorem Admits.observe (h : m.Admits stands) (token : Token) (t : TaskId) :
    (m.observe token t).Admits stands :=
  h.of_rouses ⟨[], m.rouses_observe [] token t⟩ (m.gate?_observe token t)

theorem Admits.startRequest (h : m.Admits stands) (hme : stands run me = some .calling)
    (token : Token) (request : Request) :
    (m.startRequest me run token request).machine.Admits
      (stands.set run me (m.startRequest me run token request).turn.standing) := by
  have hsame {m' : Machine} (hr : Rouses [] m m') (hg : m'.gate? = m.gate?) : m'.Admits stands :=
    h.of_rouses ⟨[], hr⟩ hg
  have hbegins := m.startRequest_begins me run token request
  generalize m.startRequest me run token request = polled at hbegins ⊢
  cases hbegins with
  | answers sink outcome =>
      refine Admits.answerRequest (hsame ?_ ?_) hme _ _
      · exact .of_eq rfl rfl rfl rfl rfl
      · exact gate?_of_runs rfl
  | calls | operates =>
      change (Machine.observe _ token me).Admits (stands.set run me (some .calling))
      rw [Standings.set_same hme]
      refine Admits.observe (hsame ?_ ?_) token me
      · exact .of_eq rfl rfl rfl rfl rfl
      · exact gate?_of_runs rfl

/-- A task takes a permit of its run and starts its request. -/
theorem Admits.enter (h : m.Admits stands) {g g' : Gate TaskId} (hg : m.gate? run = some g)
    (hbooks : g'.Books (Function.update (stands run) me (some .calling))) (hsize : g'.size = g.size)
    (hgranted : ∀ u ∈ g'.granted, u ∈ g.granted) (token : Token) (request : Request) :
    ((m.setGate run g').startRequest me run token request).machine.Admits
      (stands.set run me ((m.setGate run g').startRequest me run token request).turn.standing) := by
  have hentered : (m.setGate run g').Admits (stands.set run me (some .calling)) :=
    h.change hg ⟨[], .of_eq rfl rfl rfl rfl rfl⟩
      (gate?_setGate (Option.isSome_of_eq_some hg)) hbooks hsize fun u hu => Or.inl (hgranted u hu)
  have hstarted := hentered.startRequest Standings.set_self token request
  rwa [Standings.set_set] at hstarted

theorem Admits.pollRequest (h : m.Admits stands) {token : Token} {request : Request} {wait : Wait}
    (hme : stands run me = wait.standing) :
    (m.pollRequest me run token request wait).machine.Admits
      (stands.set run me (m.pollRequest me run token request wait).turn.standing) := by
  have hpoll := m.pollRequest_requests me run token request wait
  generalize m.pollRequest me run token request wait = polled at hpoll ⊢
  cases hpoll with
  | refused first why =>
      change m.Admits (stands.set run me none)
      rwa [Standings.set_same (hme.trans (Wait.standing_of_not_asked first))]
  | leaves cancelled => exact (h.withdraw hme).of_rouses ⟨[], .of_eq rfl rfl rfl rfl rfl⟩ rfl
  | abandoned awaited cancelled =>
      exact h.abandonRequest (hme.trans (Wait.standing_of_awaited awaited)) request _
  | starts valid there taken =>
      have hg := gate?_eq_some there
      rcases taken with ⟨rfl, hclaim⟩ | ⟨first, hfree⟩
      · exact h.enter hg ((h.books hg).claim hclaim) (Gate.size_claim? hclaim)
          (fun u => Gate.mem_granted_claim? hclaim) token request
      · have hidle := hme.trans (Wait.standing_of_not_asked first)
        refine h.enter hg ((h.books hg).acquire hidle hfree) (Gate.size_tryAcquire? hfree) ?_ token
          request
        obtain ⟨-, rfl⟩ := Gate.tryAcquire?_eq_some.mp hfree
        exact fun u hu => hu
  | queues first valid there full =>
      have hg := gate?_eq_some there
      have hidle := hme.trans (Wait.standing_of_not_asked first)
      refine Admits.observe ?_ token me
      exact h.change hg ⟨[], .of_eq rfl rfl rfl rfl rfl⟩
        (gate?_setGate (Option.isSome_of_eq_some hg)) ((h.books hg).enqueue hidle full) rfl
        fun u hu => Or.inl hu
  | queued | waits | unsuited =>
      simp only [Polled.turn, Polled.machine, Turn.standing]
      rwa [Standings.set_same hme]
  | replied valid fired => exact h.answerRequest hme request _
  | performed record valid fired =>
      refine Admits.answerRequest (h.of_rouses ⟨[], ?_⟩ ?_) hme _ _
      · exact .of_eq rfl rfl rfl rfl rfl
      · exact gate?_of_runs rfl

/-! ## Other effects -/

variable (m)

theorem gate?_cancel (token : Token) : (m.cancel token).gate? = m.gate? :=
  outsider_gates.cancel (fun _ _ => rfl) m token

theorem gate?_mark (run : Nat) (step : String) (status : Option StepStatus) :
    (m.mark run step status).2.gate? = m.gate? := by
  unfold mark
  split
  · exact gate?_modifyRun _ run _ fun _ => rfl
  · rfl
  · rfl

theorem sleeper_gates (me : TaskId) : Sleeper (fun m m' => m'.gate? = m.gate?) me where
  refl _ := rfl
  trans h h' := h'.trans h
  modifyRun m run _ gate _ := m.gate?_modifyRun run _ gate
  modifyWorld _ _ _ := rfl
  forget _ := rfl
  observe m token := m.gate?_observe token me
  schedule _ _ := rfl
  stopTimer _ _ := rfl

theorem gate?_poll (me : TaskId) (wait : Wait) {e : Effect}
    (hr : ∀ run token request, e ≠ .request run token request)
    (ho : ∀ flow parent, e ≠ .openRun flow parent) :
    (m.poll me wait e).machine.gate? = m.gate? := by
  cases e with
  | request run token request => exact absurd rfl (hr _ _ _)
  | openRun flow parent => exact absurd rfl (ho _ _)
  | childToken | startDeadline | stopDeadline => rfl
  | startSpan ctx step => exact m.gate?_mark ctx.run step none
  | endSpan ctx step status => exact m.gate?_mark ctx.run step (some status)
  | sleep token span => exact (sleeper_gates me).pollSleep m token span wait
  | join run policy group branches =>
      exact outsider_gates.pollJoin policy (fun _ => gate?_cancel) m me run group branches wait
  | settle run token => exact outsider_gates.pollSettle m me run token wait
  | acquireSlot =>
      unfold poll pollSlot
      cases wait <;> dsimp only <;> split <;> rfl
  | releaseSlot =>
      have hwake : m.releaseSlot.gate? = { m with slots := m.slots.release.1 }.gate? :=
        gate?_of_shared (shared_wakeIfSome _ m.slots.release.2)
      exact hwake
  | awaitRun submission =>
      unfold poll
      dsimp only
      unfold pollRun
      split <;> rfl
  | _ => exact (sleeper_gates me).toClerical.poll m me wait rfl

variable {m}

theorem gate?_openRun {flow : String} {parent : Token} {g : Gate TaskId}
    (h : (m.openRun flow parent).2.gate? run = some g) :
    m.gate? run = some g ∨ m.gate? run = none ∧ g = .new m.maxConcurrency := by
  simp only [openRun, childToken, gate?, Array.getElem?_push] at h
  split at h
  · rename_i hrun
    cases h
    refine Or.inr ⟨?_, rfl⟩
    rw [gate?, hrun, Array.getElem?_eq_none (Nat.le_refl _)]
    rfl
  · exact Or.inl h

theorem Admits.openRun (h : m.Admits stands) (flow : String) (parent : Token) :
    (m.openRun flow parent).2.Admits stands where
  books {run g} hget := by
    rcases gate?_openRun hget with hold | ⟨hnone, rfl⟩
    · exact h.books hold
    · have hstands : stands run = fun _ => none := by
        funext t
        cases hx : stands run t with
        | none => rfl
        | some x =>
            have hopened := h.opened hx
            rw [hnone] at hopened
            cases hopened
      rw [hstands]
      exact Gate.books_new _
  size hget := by
    rcases gate?_openRun hget with hold | ⟨-, rfl⟩
    · exact h.size hold
    · rfl
  granted hget ht := by
    rcases gate?_openRun hget with hold | ⟨-, rfl⟩
    · exact h.granted hold ht
    · cases ht
  opened {run t x} ht := by
    obtain ⟨g, hg⟩ := Option.isSome_iff_exists.mp (h.opened ht)
    obtain ⟨r, hr, -⟩ := Option.map_eq_some_iff.mp hg
    have hlt := (Array.getElem?_eq_some_iff.mp hr).1
    simp only [Machine.openRun, childToken, gate?, Array.getElem?_push, if_neg (Nat.ne_of_lt hlt)]
    rw [hr]
    rfl

theorem Admits.poll (h : m.Admits stands) {wait : Wait} {e : Effect}
    (hme : ∀ run token request, e = .request run token request → stands run me = wait.standing) :
    (m.poll me wait e).machine.Admits (stands.after me e (m.poll me wait e).turn.standing) := by
  by_cases hr : ∃ run token request, e = .request run token request
  · obtain ⟨run, token, request, rfl⟩ := hr
    exact h.pollRequest (hme _ _ _ rfl)
  · replace hr : ∀ run token request, e ≠ .request run token request :=
      fun run token request he => hr ⟨run, token, request, he⟩
    rw [Standings.after_of_ne hr]
    by_cases ho : ∃ flow parent, e = .openRun flow parent
    · obtain ⟨flow, parent, rfl⟩ := ho
      exact h.openRun flow parent
    · exact h.of_rouses ⟨_, m.rouses_poll me wait e⟩
        (m.gate?_poll me wait hr fun flow parent he => ho ⟨flow, parent, he⟩)

theorem turn_startRequest_ne (token : Token) (request : Request) :
    (m.startRequest me run token request).turn ≠ .waiting .permit := by
  have hbegins := m.startRequest_begins me run token request
  generalize m.startRequest me run token request = polled at hbegins ⊢
  cases hbegins <;> nofun

/-- A task that still has to wait for a permit after a poll was not handed one. -/
theorem Admits.not_granted (h : m.Admits stands) {token : Token} {request : Request} {wait : Wait}
    (hme : stands run me = wait.standing)
    (hturn : (m.pollRequest me run token request wait).turn = .waiting .permit) {g : Gate TaskId}
    (hg : (m.pollRequest me run token request wait).machine.gate? run = some g) : me ∉ g.granted := by
  have hpoll := m.pollRequest_requests me run token request wait
  generalize m.pollRequest me run token request wait = polled at hpoll hturn hg
  cases hpoll with
  | refused | leaves | abandoned | replied | performed | unsuited => cases hturn
  | waits awaited valid pending =>
      cases hturn
      cases awaited
  | starts valid there taken => exact absurd hturn (turn_startRequest_ne token request)
  | queued valid nothing =>
      obtain ⟨r, hr, rfl⟩ := Option.map_eq_some_iff.mp hg
      exact Gate.claim?_eq_none.mp (nothing r hr)
  | queues first valid there full =>
      rw [Polled.machine, gate?_observe,
        gate?_setGate (Option.isSome_of_eq_some (gate?_eq_some there)), Function.update_self] at hg
      cases hg
      intro hm
      have hqueued := (h.books (gate?_eq_some there)).queued.mp (List.mem_append_right _ hm)
      rw [hme, Wait.standing_of_not_asked first] at hqueued
      cases hqueued

/-- A request starts only with a permit: one is free, or the task was handed one. -/
theorem permit_of_start {token : Token} {request : Request} {wait : Wait}
    (hbefore : wait.standing ≠ some .calling)
    (hstart : (∃ outcome, (m.pollRequest me run token request wait).turn = .answered (.ok outcome)) ∨
      (m.pollRequest me run token request wait).turn.standing = some .calling) :
    ∃ g, m.gate? run = some g ∧ (g.free ≠ 0 ∨ me ∈ g.granted) := by
  have hpoll := m.pollRequest_requests me run token request wait
  generalize m.pollRequest me run token request wait = polled at hpoll hstart
  cases hpoll with
  | refused | leaves | queues | queued => obtain ⟨outcome, ⟨⟩⟩ | ⟨⟨⟩⟩ := hstart
  | abandoned awaited | waits awaited => exact absurd (Wait.standing_of_awaited awaited) hbefore
  | replied | performed | unsuited => exact absurd rfl hbefore
  | @starts _ r gate valid there taken =>
      refine ⟨r.gate, gate?_eq_some there, ?_⟩
      rcases taken with ⟨-, hclaim⟩ | ⟨-, hfree⟩
      · exact Or.inr (Gate.claim?_eq_some.mp hclaim).1
      · exact Or.inl (Gate.tryAcquire?_eq_some.mp hfree).1

end Machine
end FlowEngine
